import NestedZip.CommandLine.Report
import NestedZip.Proofs.Connection
import NestedZip.Proofs.Manifest.Written

/-!
# Manifests Are Read Back

A manifest that can be written is read back from what was written, and a
manifest that was read can be written.

The first half is about those who write manifests, who may fold values and end
lines as they like. The second half has no writer in it, since bytes that are
read need not come from one: whatever they are, the manifest that is read from
them is one that can be written. Each line adds something that can be written
to what has been read, and the end of a section only moves it, so this is an
invariant of reading.

The two together say that printing loses nothing. What is printed for a
manifest is its first section, one attribute a line, which is one way to write
a manifest without any other section.

## Main definitions

* `Manifest.Progress.Printable`: All that has been read can be written.
* `Manifest.printed`: What is printed of a manifest.

## Theorems

* `Manifest.Progress.readLines_printable`: Reading keeps to what can be written.
* `Manifest.parse_printed`: What was printed is read back.
* `Arguments.answer_manifest`: What a run prints that is asked for a manifest.
* `Manifest.parse_roundTrip`: Both halves.
-/

namespace NestedZip

namespace Attributes

theorem printable_nil : Printable [] := fun _ hp => absurd hp List.not_mem_nil

/-- Attributes can be printed if the first one can be and so can the others. -/
theorem printable_cons_iff {key value : String} {a : Attributes} :
    Printable ((key, value) :: a) ↔
      PrintableKey key.toList ∧ Manifest.Plain value.toList ∧ a.Printable := by
  constructor
  · intro h
    have hfirst := h _ List.mem_cons_self
    exact ⟨hfirst.1, hfirst.2, fun p hp => h p (List.mem_cons_of_mem _ hp)⟩
  · rintro ⟨hkey, hvalue, ha⟩ p hp
    rcases List.mem_cons.mp hp with rfl | hp
    · exact ⟨hkey, hvalue⟩
    · exact ha p hp

theorem Printable.reverse {a : Attributes} (h : a.Printable) : Printable a.reverse :=
  fun p hp => h p (List.mem_reverse.mp hp)

end Attributes

namespace Manifest

namespace Progress

/-- All that has been read can be written. -/
structure Printable (p : Progress) : Prop where
  main : ∀ a, p.main = some a → a.Printable
  sections : ∀ s ∈ p.sections, s.2.Printable ∧ s.2.NamedBy s.1
  current : p.current.Printable

variable {p q : Progress}

/-- The end of a section moves what has been read of it. -/
theorem endSection_printable (hp : p.Printable) {line : Nat} (h : p.endSection line = .ok q) :
    q.Printable := by
  rcases endSection_eq_ok_iff.mp h with ⟨_, rfl⟩ | ⟨_, _, rfl⟩ | ⟨name, _, hname, rfl⟩
  · -- The first section becomes that of the archive, whatever is in it.
    refine ⟨fun a ha => ?_, hp.sections, Attributes.printable_nil⟩
    rw [← Option.some.inj ha]
    exact hp.current.reverse
  · exact hp
  · -- A later one is kept only with a name, which is looked up in what has been read.
    refine ⟨hp.main, fun s hs => ?_, Attributes.printable_nil⟩
    rcases List.mem_cons.mp hs with rfl | hs
    · exact ⟨hp.current.reverse, Attributes.get?_name_eq_some_iff.mp hname⟩
    · exact hp.sections s hs

/-- Leaving out a space in front breaks no line. -/
theorem plain_unspaced {value : List Char} (h : Plain value) : Plain (unspaced value) := by
  unfold unspaced
  split
  · exact (plain_cons_iff.mp h).2.2
  · exact h

/-- A line adds an attribute that can be written, or goes on with a value. -/
theorem readAttribute_printable (hp : p.Printable) {line : Nat} {text : List Char}
    (htext : Plain text) (h : p.readAttribute line text = .ok q) : q.Printable := by
  rcases readAttribute_eq_ok h with
    ⟨piece, key, value, current, rfl, hcurrent, rfl⟩ |
      ⟨key, value, rfl, hsome, hspace, hcolon, rfl⟩
  · -- The attribute in front stays what it was, with more behind its value.
    have hboth := hp.current
    rw [hcurrent, Attributes.printable_cons_iff] at hboth
    obtain ⟨hkey, hvalue, hrest⟩ := hboth
    refine ⟨hp.main, hp.sections, Attributes.printable_cons_iff.mpr ⟨hkey, ?_, hrest⟩⟩
    rw [String.toList_append, String.toList_ofList, plain_append_iff]
    exact ⟨hvalue, (plain_cons_iff.mp htext).2.2⟩
  · -- Any other line is a new attribute.
    obtain ⟨hkey, hvalue⟩ := plain_append_iff.mp htext
    refine ⟨hp.main, hp.sections, Attributes.printable_cons_iff.mpr ⟨?_, ?_, hp.current⟩⟩
    · rw [String.toList_ofList]
      exact ⟨hsome, hspace, hcolon, hkey⟩
    · rw [String.toList_ofList]
      exact plain_unspaced (plain_cons_iff.mp hvalue).2.2

/-- Lines without line ends in them leave what can be written, and so does what is made
    of it in the end. -/
theorem readLines_printable (hp : p.Printable) {line : Nat} {lines : List (List Char)}
    (hlines : ∀ text ∈ lines, Plain text) (h : p.readLines line lines = .ok q) : q.Printable := by
  -- On the lines: each ends a section or brings an attribute, and neither breaks what is printable.
  induction lines generalizing p line with
  | nil => exact endSection_printable hp h
  | cons text rest ih =>
      have htext := hlines text List.mem_cons_self
      have hrest := fun other hother => hlines other (List.mem_cons_of_mem text hother)
      obtain ⟨r, hfirst, hread⟩ := readLines_cons_eq_ok_iff.mp h
      refine ih ?_ hrest hread
      rcases hfirst with ⟨_, hend⟩ | ⟨_, hline⟩
      · exact endSection_printable hp hend
      · exact readAttribute_printable hp htext hline

/-- What is gathered from lines can be printed at their end. -/
theorem finish_printable (hp : p.Printable) : p.finish.Printable where
  main := by
    rcases hmain : p.main with _ | main
    · rw [finish, hmain]
      exact Attributes.printable_nil
    · rw [finish, hmain]
      exact hp.main main hmain
  sections := fun s hs => hp.sections s (List.mem_reverse.mp hs)

end Progress

/-- Whatever the bytes are, what is read from them can be written. -/
theorem printable_of_parse {archive : String} {bytes : Bytes} {m : Manifest}
    (h : parse archive bytes = .ok m) : m.Printable := by
  have htext := except_mapError_eq_ok_iff.mp h
  rw [ofText_eq] at htext
  rcases hread : Progress.readLines {} 1 (lines (Text.decodeLossy bytes).toList) with e | p
  · rw [hread] at htext
    exact absurd htext error_ne_ok
  · rw [hread] at htext
    rw [← Except.ok.inj htext]
    -- Before the first line nothing has been read.
    refine Progress.finish_printable (Progress.readLines_printable ?_ ?_ hread)
    · exact ⟨fun a ha => absurd ha.symm (Option.some_ne_none a),
        fun s hs => absurd hs List.not_mem_nil, Attributes.printable_nil⟩
    · intro line hline
      exact plain_of_mem_lines hline

/-- What is printed of a manifest: the attributes of its first section, one a line. -/
def printed (m : Manifest) : Bytes :=
  (Report.ofLines (m.main.map fun (name, value) => s!"{name}: {value}")).output

/-- A first section as it is printed, without any folds. -/
def unfolded (a : Attributes) : WrittenManifest where
  main := a.map fun (key, value) => { key, first := value.toList, more := [] }
  sections := []

/-- Attributes on a line each write the manifest that has them as its main section. -/
theorem unfolded_writes (a : Attributes) :
    (unfolded a).Writes { main := a, sections := [] } where
  main := by
    -- An attribute that is not folded is its own pair.
    have hpair : ∀ p : String × String, WrittenAttribute.pair
        { key := p.1, first := p.2.toList, more := [] } = p := by
      intro p
      rw [WrittenAttribute.pair, List.flatten_nil, List.append_nil, String.ofList_toList]
    rw [unfolded, List.map_map]
    exact (List.map_congr_left fun p _ => hpair p).trans (List.map_id a)
  sections := rfl

/-- Every line is written with a line feed behind it. -/
theorem output_ofLines (lines : List String) :
    (Report.ofLines lines).output =
      Text.encode (String.ofList (lines.flatMap fun line => line.toList ++ ['\n'])) := by
  unfold Report.ofLines Text.encode
  rw [String.toList_ofList, List.flatMap_assoc]
  simp only [String.toList_append]
  rfl

/-- Printing is one way to write a first section. -/
theorem printed_eq_bytes (m : Manifest) :
    ∃ final, m.printed = (unfolded m.main).bytes .lf final := by
  have hlines : (unfolded m.main).lines =
      m.main.map fun p => p.1.toList ++ ':' :: ' ' :: p.2.toList := by
    simp only [WrittenManifest.lines, unfolded, List.flatMap_nil, List.append_nil,
      List.flatMap_map, WrittenAttribute.lines, List.map_nil]
    exact List.map_eq_flatMap.symm
  unfold printed WrittenManifest.bytes
  rw [output_ofLines, hlines]
  -- Nothing is printed for no attributes, and a line end behind each attribute otherwise.
  rcases m.main with _ | ⟨p, rest⟩
  · exact ⟨false, rfl⟩
  · have hsome : (p :: rest).map (fun p => p.1.toList ++ ':' :: ' ' :: p.2.toList) ≠ [] :=
      List.cons_ne_nil _ _
    have hline : ∀ key value : String,
        (s!"{key}: {value}").toList ++ ['\n'] =
          key.toList ++ ':' :: ' ' :: value.toList ++ LineEnd.lf.chars := by
      intro key value
      simp only [toString, String.toList_append, List.append_assoc]
      rfl
    refine ⟨true, ?_⟩
    rw [LineEnd.text_true _ hsome, List.flatMap_map, List.flatMap_map]
    exact congrArg (fun line => Text.encode (String.ofList ((p :: rest).flatMap line)))
      (funext fun p => hline p.1 p.2)

/-- What was printed is read back as the first section, and there is no other one. -/
theorem parse_printed {m : Manifest} (hm : m.Printable) (archive : String) :
    parse archive m.printed = .ok { main := m.main, sections := [] } := by
  obtain ⟨final, hbytes⟩ := m.printed_eq_bytes
  rw [hbytes]
  refine WrittenManifest.parse_bytes archive ?_ (unfolded_writes m.main) .lf final
  exact ⟨hm.main, fun s hs => absurd hs List.not_mem_nil⟩

end Manifest

/-- The manifest of an archive is what was read from the bytes of its entry. -/
theorem Archive.exists_parse_of_manifest {a : Archive} {inflate : Decompressor} {m : Manifest}
    (h : (a.manifest inflate).outcome = .ok (some m)) :
    ∃ data bytes, (a.entryData (Text.encode Manifest.entryName)).outcome = .ok (some data) ∧
      (data.readAll inflate).outcome = .ok bytes ∧ Manifest.parse a.url bytes = .ok m := by
  unfold Archive.manifest at h
  obtain ⟨found, hfound, h⟩ := Metered.bind_outcome_eq_ok_iff.mp h
  rcases found with _ | data
  · exact absurd (Except.ok.inj h) (Option.some_ne_none m).symm
  · obtain ⟨bytes, hbytes, h⟩ := Metered.bind_outcome_eq_ok_iff.mp h
    obtain ⟨read, hread, h⟩ := Metered.bind_outcome_eq_ok_iff.mp h
    rw [Metered.outcome_pure, Except.ok.injEq, Option.some.injEq] at h
    exact ⟨data, bytes, hfound, hbytes, h ▸ hread⟩

namespace Arguments

variable {a : Arguments} {p : Platform} {l : Locator} {s t : Connection × Resolver}

/-- A run that is asked for a manifest prints that of the archive it comes to. -/
theorem answer_manifest {h : Handle} {m : Manifest} (hasked : a.has .manifest = true)
    (harchive : Connection.archive s = .ok h t)
    (hm : ((t.2.present h).manifest p.inflate).outcome = .ok (some m)) :
    ∃ u, a.answer p l s = .ok { output := m.printed } u := by
  -- The manifest was found, so the costs are all that the run adds.
  have hcharge : ∃ u, Connection.charge h.source ((t.2.present h).manifest p.inflate) t =
      .ok (some m) u := Connection.charge_eq_ok_iff.mpr hm
  obtain ⟨u, hu⟩ := hcharge
  have hmanifest := Connection.manifest_of_archive (Connection.archive_of_archive harchive)
    p.inflate
  refine ⟨u, ?_⟩
  unfold answer
  rw [if_pos hasked, Resolving.bind_of_ok harchive, Resolving.bind_of_ok (hmanifest.trans hu)]
  rfl

/-- There is nothing else that it prints, unless it fails. -/
theorem manifest_of_answer {report : Report} (hasked : a.has .manifest = true)
    (hanswer : a.answer p l s = .ok report t) (hstatus : report.status = 0) :
    ∃ h u m, Connection.archive s = .ok h u ∧
      ((u.2.present h).manifest p.inflate).outcome = .ok (some m) ∧
      report = { output := m.printed } := by
  unfold answer at hanswer
  rw [if_pos hasked] at hanswer
  obtain ⟨h, u, harchive, hanswer⟩ := Resolving.bind_eq_ok_iff.mp hanswer
  obtain ⟨found, v, hfound, hanswer⟩ := Resolving.bind_eq_ok_iff.mp hanswer
  rw [Connection.manifest_of_archive (Connection.archive_of_archive harchive)] at hfound
  rcases found with _ | m
  · -- Without a manifest the run has failed.
    have hreport : Report.ofFailure (.noManifest h.archive.url) = report :=
      (EStateM.Result.ok.inj hanswer).1
    rw [← hreport] at hstatus
    exact absurd hstatus Nat.one_ne_zero
  · have hreport : Report.ofLines (m.main.map fun (name, value) => s!"{name}: {value}") = report :=
      (EStateM.Result.ok.inj hanswer).1
    exact ⟨h, u, m, harchive, Connection.charge_eq_ok_iff.mp ⟨_, hfound⟩, hreport.symm⟩

end Arguments

namespace Manifest

/-- A manifest that can be written is read back, however its values are folded and its
    lines end. A manifest that was read, from whatever bytes, can be written, and what is
    printed of it is read back as its first section. A run that is asked for the manifest of an
    archive prints just this of the one that is read from its entry. -/
theorem parse_roundTrip :
    (∀ (m : Manifest) (w : WrittenManifest) (e : LineEnd) (final : Bool) (archive : String),
      m.Printable → w.Writes m → parse archive (w.bytes e final) = .ok m) ∧
    (∀ (archive : String) (bytes : Bytes) (m : Manifest), parse archive bytes = .ok m →
      m.Printable ∧
        ∀ other, parse other m.printed = .ok { main := m.main, sections := [] }) ∧
    (∀ (a : Arguments) (p : Platform) (l : Locator) (s t : Connection × Resolver)
      (report : Report), a.has .manifest = true → a.answer p l s = .ok report t →
      report.status = 0 →
      ∃ h u data bytes m, Connection.archive s = .ok h u ∧
        ((u.2.present h).entryData (Text.encode entryName)).outcome = .ok (some data) ∧
        (data.readAll p.inflate).outcome = .ok bytes ∧
        parse (u.2.present h).url bytes = .ok m ∧ report = { output := m.printed }) ∧
    (∀ (a : Arguments) (p : Platform) (l : Locator) (s t : Connection × Resolver) (h : Handle)
      (m : Manifest), a.has .manifest = true → Connection.archive s = .ok h t →
      ((t.2.present h).manifest p.inflate).outcome = .ok (some m) →
      ∃ u, a.answer p l s = .ok { output := m.printed } u) := by
  refine ⟨?_, ?_, ?_, ?_⟩
  · intro m w e final archive hm hwrites
    exact WrittenManifest.parse_bytes archive hm hwrites e final
  · intro archive bytes m hread
    have hm := printable_of_parse hread
    exact ⟨hm, parse_printed hm⟩
  · intro a p l s t report hasked hanswer hstatus
    obtain ⟨h, u, m, harchive, hm, hreport⟩ :=
      Arguments.manifest_of_answer hasked hanswer hstatus
    obtain ⟨data, bytes, hdata, hbytes, hread⟩ := Archive.exists_parse_of_manifest hm
    exact ⟨h, u, data, bytes, m, harchive, hdata, hbytes, hread, hreport⟩
  · intro a p l s t h m hasked harchive hm
    exact Arguments.answer_manifest hasked harchive hm

/-- A value that starts with a space, is folded there and at its end, and a section whose
    name is folded and does not come first. -/
def folded : WrittenManifest where
  main := [{ key := "X-Y", first := [' '], more := [['é', ' '], []] }]
  sections := [{
    gap := 1
    attributes := [{ key := "Sealed", first := [], more := [] },
      { key := "nAmE", first := ['l', 'i', 'b', '/'], more := [['a']] }] }]

/-- Lines that end in two ways, one of which is folded, and a section. -/
def mixed : Bytes := Text.encode "A: b\r\nC:d\n e\n\nname: x\nS:t"

/-- An archive of just this manifest. -/
def mixedArchive : Bytes :=
  [80, 75, 3, 4, 10, 0, 0, 0, 0, 0, 0, 0, 0, 0, 0, 0, 0, 0, 25, 0, 0, 0, 25, 0, 0, 0,
      20, 0, 0, 0] ++
    Text.encode entryName ++ mixed ++
    [80, 75, 1, 2, 10, 0, 10, 0, 0, 0, 0, 0, 0, 0, 0, 0, 0, 0, 0, 0, 25, 0, 0, 0, 25, 0, 0, 0,
      20, 0, 0, 0, 0, 0, 0, 0, 0, 0, 0, 0, 0, 0, 0, 0, 0, 0] ++ Text.encode entryName ++
    [80, 75, 5, 6, 0, 0, 0, 0, 1, 0, 1, 0, 66, 0, 0, 0, 75, 0, 0, 0, 0, 0]

/-- What was folded is read back, what was mixed can be written, and a run prints it. -/
theorem parse_roundTrip_folded :
    let m : Manifest := {
      main := [("X-Y", " é ")]
      sections := [("lib/a", [("Sealed", ""), ("nAmE", "lib/a")])] }
    let a : Arguments := { locator := "mem:m", switches := [.manifest] }
    let p : Platform := { directory := "/", inflate := fun raw _ => { bytes := raw.bytes } }
    let l : Locator := { root := "mem:m", archives := [], entry := none }
    let s : Connection × Resolver :=
      ({ locator := l }, (({} : Resolver).register "m" ⟨mixedArchive.toArray⟩).2)
    (∀ (e : LineEnd) (final : Bool), parse "m" (folded.bytes e final) = .ok m) ∧
    (∃ read : Manifest, read.main = [("A", "b"), ("C", "de")] ∧ parse "m" mixed = .ok read ∧
      read.Printable ∧ parse "m" read.printed = .ok { main := read.main, sections := [] }) ∧
    (∃ h t m u, Connection.archive s = .ok h t ∧
      ((t.2.present h).manifest p.inflate).outcome = .ok (some m) ∧
      a.answer p l s = .ok { output := m.printed } u) ∧
    ∃ report t, a.answer p l s = .ok report t ∧ report.output = Text.encode "A: b\nC: de\n" ∧
      ∃ h u data bytes m, Connection.archive s = .ok h u ∧
        ((u.2.present h).entryData (Text.encode entryName)).outcome = .ok (some data) ∧
        (data.readAll p.inflate).outcome = .ok bytes ∧
        parse (u.2.present h).url bytes = .ok m ∧ report = { output := m.printed } := by
  intro m a p l s
  have hm : m.Printable := by decide +kernel
  have hwrites : folded.Writes m := ⟨by decide +kernel, by decide +kernel⟩
  have hparse : parse "m" mixed = .ok {
      main := [("A", "b"), ("C", "de")], sections := [("x", [("name", "x"), ("S", "t")])] } := by
    decide +kernel
  obtain ⟨hread, hprinted⟩ := parse_roundTrip.2.1 "m" mixed _ hparse
  refine ⟨fun e final => parse_roundTrip.1 m folded e final "m" hm hwrites,
    ⟨_, rfl, hparse, hread, hprinted "m"⟩, ?_⟩
  -- Only the output is computed. What the run comes to on the way is what the theorem says.
  have hrun : EStateM.run' (a.answer p l) s = some { output := Text.encode "A: b\nC: de\n" } := by
    decide +kernel
  unfold EStateM.run' EStateM.run at hrun
  rcases hanswer : a.answer p l s with ⟨report, t⟩ | ⟨e, t⟩
  · rw [hanswer, Option.some.injEq] at hrun
    have hstatus : report.status = 0 := by rw [hrun]
    obtain ⟨h, u, m, harchive, hm, _⟩ :=
      Arguments.manifest_of_answer (by decide) hanswer hstatus
    obtain ⟨v, hprints⟩ := parse_roundTrip.2.2.2 a p l s u h m (by decide) harchive hm
    exact ⟨⟨h, u, m, v, harchive, hm, hanswer.symm.trans hprints⟩, report, t, rfl,
      congrArg Report.output hrun,
      parse_roundTrip.2.2.1 a p l s t report (by decide) hanswer hstatus⟩
  · rw [hanswer] at hrun
    exact absurd hrun.symm (Option.some_ne_none _)

end Manifest

end NestedZip
