import Mathlib.Data.List.Infix
import NestedZip.Proofs.Manifest.Written

/-!
# Manifests by Their Runs

When a manifest is accepted, what it then is, and which line is at fault where
it is not.

Blank lines cut the lines of a text into runs. The first run is there even if
nothing is in it, and it is the section of the archive. Between blank lines
that follow each other there is a run with nothing in it as well, and of these
nothing becomes. Every other run has to be the section of an entry.

A line is judged by itself and by whether a line of its run stands in front of
it. A run is judged when it is over, by what its lines say, and that is either
at a blank line or nowhere in particular, since no line stands for the end of
the text. So the two ways in which a run may end have a case each in `Offence`.
What is wrong is then a matter of the runs and their numbers, and reading has
no part in it. It stops at the first offence because all that it has read until
then is in order: the lines of the run at hand are accepted, and the runs in
front of it are closed.

## Main definitions

* `Manifest.runs`, `Manifest.Named`: The runs of some lines, and those with a name.
* `Manifest.Accepted`, `Manifest.LineFault`: The lines that may stand in a run,
  and what is wrong with others.
* `Manifest.Offence`: What is wrong with runs, and in which line.
* `Manifest.Says`: The attributes that a run is about.
* `Manifest.WellFormed`, `Manifest.FromRuns`: Runs that are accepted, and the
  manifest that they make.
* `Manifest.Progress.Closes`, `Manifest.Progress.Gathers`: What is made of runs.

## Theorems

* `Manifest.accepted_iff`: A line is accepted or has a fault.
* `Manifest.Says.next`: An accepted line adds to what a run says.
* `Manifest.Progress.endSection_cases`: The end of a run.
* `Manifest.Progress.readLines_reading`: Reading stops at the first offence.
* `Manifest.parse_by_runs`: A manifest is accepted by its runs, or the first
  offence is reported.
-/

namespace NestedZip

namespace Manifest

/-- Lines with no blank line between them. -/
abbrev Run := List (List Char)

/-- The runs that blank lines cut lines into, the first of which ends at the first blank line. -/
def runs (lines : List (List Char)) : List Run := lines.splitOnP List.isEmpty

theorem runs_nil : runs [] = [[]] := List.splitOnP_nil

theorem runs_blank (rest : List (List Char)) : runs ([] :: rest) = [] :: runs rest := by
  unfold runs
  rw [List.splitOnP_cons_eq_if_modifyHead, if_pos List.isEmpty_nil]

theorem runs_line {line : List Char} (hline : line ≠ []) {rest : List (List Char)} {first : Run}
    {more : List Run} (hrest : runs rest = first :: more) :
    runs (line :: rest) = (line :: first) :: more := by
  unfold runs at hrest ⊢
  rw [List.splitOnP_cons_eq_if_modifyHead, hrest,
    if_neg (fun hempty => hline (List.isEmpty_iff.mp hempty)), List.modifyHead_cons]

theorem exists_runs (lines : List (List Char)) : ∃ first more, runs lines = first :: more :=
  List.exists_cons_of_ne_nil (List.splitOnP_ne_nil _ _)

/-- A line that may stand in a run behind these lines: it goes on with the value in front of
    it, or it has a colon and something in front of it. -/
def Accepted (before : Run) (line : List Char) : Prop :=
  (line.head? = some ' ' ∧ before ≠ []) ∨
    (line.head? ≠ some ' ' ∧ ':' ∈ line ∧ line.head? ≠ some ':')

/-- What is wrong with a line that stands in a run behind these lines. -/
inductive LineFault : (before : Run) → (line : List Char) → ManifestFault → Prop
  | orphan {more : List Char} : LineFault [] (' ' :: more) .orphanContinuation
  | noColon {before : Run} {line : List Char} : line.head? ≠ some ' ' → ':' ∉ line →
      LineFault before line (.noColon (String.ofList line))
  | emptyName {before : Run} {value : List Char} : LineFault before (':' :: value) .emptyName

/-- The run has an attribute that is called `Name`, in any spelling. -/
def Named (run : Run) : Prop :=
  ∃ line ∈ run, line.head? ≠ some ' ' ∧ ':' ∈ line ∧
    (line.takeWhile (· != ':')).map Char.toUpper = ['N', 'A', 'M', 'E']

/-- What is wrong with runs, and the number of the line that it is wrong with. The first line of
    the first run has the number `start`, and a run is a later one if it is not the first of all. -/
inductive Offence :
    (later : Bool) → (start : Nat) → List Run → (number : Nat) → ManifestFault → Prop
  /-- A line that may not stand where it stands. -/
  | line {later : Bool} {start : Nat} {before after : Run} {line : List Char} {more : List Run}
      {fault : ManifestFault} : LineFault before line fault →
      Offence later start ((before ++ line :: after) :: more) (start + before.length) fault
  /-- A run without a name, at the blank line that ends it. -/
  | unnamed {start : Nat} {run next : Run} {more : List Run} : run ≠ [] → ¬ Named run →
      Offence true start (run :: next :: more) (start + run.length) .unnamedSection
  /-- A run without a name that ends with the text, at its last line. -/
  | unnamedLast {start : Nat} {run : Run} : run ≠ [] → ¬ Named run →
      Offence true start [run] (start + run.length - 1) .unnamedSection
  /-- An offence in a run that comes later, behind a blank line. -/
  | behind {later : Bool} {start number : Nat} {run : Run} {more : List Run}
      {fault : ManifestFault} : Offence true (start + run.length + 1) more number fault →
      Offence later start (run :: more) number fault

/-- The attributes that the lines of a run are about. -/
inductive Says : Run → Attributes → Prop
  | nothing : Says [] []
  /-- A line with a key and a colon is about one attribute more. -/
  | begins {run : Run} {a : Attributes} {key value : List Char} : Says run a → key ≠ [] →
      key.head? ≠ some ' ' → ':' ∉ key →
      Says (run ++ [key ++ ':' :: value])
        (a ++ [(String.ofList key, String.ofList (Progress.unspaced value))])
  /-- A line that starts with a space goes on with the last value. -/
  | goesOn {run : Run} {a : Attributes} {key value : String} {piece : List Char} :
      Says run (a ++ [(key, value)]) →
      Says (run ++ [' ' :: piece]) (a ++ [(key, value ++ String.ofList piece)])

/-- All lines are accepted, and every later run has a name. -/
structure WellFormed (runs : List Run) : Prop where
  accepted : ∀ run ∈ runs, ∀ before line after, run = before ++ line :: after →
    Accepted before line
  named : ∀ run ∈ runs.tail, run ≠ [] → Named run

/-- One section for each run that is not empty, in their order. -/
inductive Sections : List Run → List (String × Attributes) → Prop
  | nil : Sections [] []
  | blank {more : List Run} {sections : List (String × Attributes)} : Sections more sections →
      Sections ([] :: more) sections
  | entry {run : Run} {more : List Run} {a : Attributes} {name : String}
      {sections : List (String × Attributes)} : Says run a → a.NamedBy name →
      Sections more sections → Sections (run :: more) ((name, a) :: sections)

/-- The manifest that runs make: the first one, whatever is in it, is about the archive, and
    every later one about an entry. -/
structure FromRuns (runs : List Run) (m : Manifest) : Prop where
  main : ∀ run, runs.head? = some run → Says run m.main
  sections : Sections runs.tail m.sections

/-- A line is accepted unless something is wrong with it. -/
theorem accepted_iff {before : Run} {line : List Char} :
    Accepted before line ↔ ∀ fault, ¬ LineFault before line fault := by
  constructor
  · -- A line goes on or it begins an attribute, and for each there are faults that it cannot have.
    rintro (⟨hspace, hbefore⟩ | ⟨hspace, hcolon, hsome⟩) fault hfault
    · cases hfault with
      | orphan => exact hbefore rfl
      | noColon hno _ => exact hno hspace
      | emptyName => exact absurd hspace (by simp)
    · cases hfault with
      | orphan => exact hspace rfl
      | noColon _ hno => exact hno hcolon
      | emptyName => exact hsome rfl
  · intro h
    by_cases hspace : line.head? = some ' '
    · refine Or.inl ⟨hspace, ?_⟩
      rintro rfl
      obtain ⟨more, rfl⟩ := List.head?_eq_some_iff.mp hspace
      exact h _ .orphan
    · refine Or.inr ⟨hspace, Decidable.byContradiction fun hcolon => h _ (.noColon hspace hcolon),
        fun hsome => ?_⟩
      obtain ⟨value, rfl⟩ := List.head?_eq_some_iff.mp hsome
      exact h _ .emptyName

theorem key_ne_nil {key value : List Char} (hsome : (key ++ ':' :: value).head? ≠ some ':') :
    key ≠ [] := by
  rintro rfl
  exact hsome rfl

namespace Says

variable {run : Run} {a : Attributes}

theorem ne_nil (h : Says run a) (hrun : run ≠ []) : a ≠ [] := by
  cases h with
  | nothing => exact absurd rfl hrun
  | begins _ _ _ _ => exact List.append_ne_nil_of_right_ne_nil _ (List.cons_ne_nil _ _)
  | goesOn _ => exact List.append_ne_nil_of_right_ne_nil _ (List.cons_ne_nil _ _)

/-- Only a run without lines says nothing. -/
theorem eq_nil_iff (h : Says run a) : a = [] ↔ run = [] := by
  refine ⟨fun ha => Decidable.byContradiction fun hrun => h.ne_nil hrun ha, ?_⟩
  rintro rfl
  generalize hrun : ([] : Run) = run at h
  cases h with
  | nothing => rfl
  | begins _ _ _ _ =>
      exact absurd hrun.symm (List.append_ne_nil_of_right_ne_nil _ (List.cons_ne_nil _ _))
  | goesOn _ =>
      exact absurd hrun.symm (List.append_ne_nil_of_right_ne_nil _ (List.cons_ne_nil _ _))

/-- A run that says something has accepted lines only. -/
theorem accepted (h : Says run a) {before after : Run} {line : List Char}
    (hrun : run = before ++ line :: after) : Accepted before line := by
  -- The induction is on what has been said, and only the last line is looked at.
  induction h generalizing after with
  | nothing => exact absurd hrun.symm (List.append_ne_nil_of_right_ne_nil _ (List.cons_ne_nil _ _))
  | begins hsaid hsome hspace hcolon ih =>
      rcases List.eq_nil_or_concat after with rfl | ⟨front, last, rfl⟩
      · obtain ⟨rfl, hline⟩ := List.append_inj' hrun rfl
        rw [← (List.cons.inj hline).1]
        refine Or.inr ⟨?_, List.mem_append_right _ List.mem_cons_self, ?_⟩
        · rw [Progress.head?_key hsome]
          exact hspace
        · rw [Progress.head?_key hsome]
          exact fun hhead => hcolon (List.mem_of_mem_head? hhead)
      · rw [List.concat_eq_append, ← List.cons_append, ← List.append_assoc] at hrun
        exact ih (List.append_inj' hrun rfl).1
  | @goesOn run a key value piece hsaid ih =>
      rcases List.eq_nil_or_concat after with rfl | ⟨front, last, rfl⟩
      · obtain ⟨rfl, hline⟩ := List.append_inj' hrun rfl
        rw [← (List.cons.inj hline).1]
        refine Or.inl ⟨rfl, fun hnil => ?_⟩
        exact List.append_ne_nil_of_right_ne_nil _ (List.cons_ne_nil _ _)
          (hsaid.eq_nil_iff.mpr hnil)
      · rw [List.concat_eq_append, ← List.cons_append, ← List.append_assoc] at hrun
        exact ih (List.append_inj' hrun rfl).1

/-- The names in a run are those of its attributes. -/
theorem named_iff (h : Says run a) :
    Named run ↔ ∃ p ∈ a, p.1.toList.map Char.toUpper = ['N', 'A', 'M', 'E'] := by
  induction h with
  | nothing => exact ⟨fun ⟨_, hline, _⟩ => absurd hline List.not_mem_nil,
      fun ⟨_, hp, _⟩ => absurd hp List.not_mem_nil⟩
  | @begins run a key value hsaid hsome hspace hcolon ih =>
      constructor
      · rintro ⟨line, hline, hstart, hmark, hname⟩
        rcases List.mem_append.mp hline with hline | hline
        · obtain ⟨p, hp, hp'⟩ := ih.mp ⟨line, hline, hstart, hmark, hname⟩
          exact ⟨p, List.mem_append_left _ hp, hp'⟩
        · rw [List.mem_singleton.mp hline, Progress.takeWhile_key hcolon] at hname
          refine ⟨_, List.mem_append_right _ List.mem_cons_self, ?_⟩
          rw [String.toList_ofList]
          exact hname
      · rintro ⟨p, hp, hname⟩
        rcases List.mem_append.mp hp with hp | hp
        · obtain ⟨line, hline, hline'⟩ := ih.mpr ⟨p, hp, hname⟩
          exact ⟨line, List.mem_append_left _ hline, hline'⟩
        · rw [List.mem_singleton.mp hp, String.toList_ofList] at hname
          refine ⟨_, List.mem_append_right _ List.mem_cons_self, ?_,
            List.mem_append_right _ List.mem_cons_self, ?_⟩
          · rw [Progress.head?_key hsome]
            exact hspace
          · rw [Progress.takeWhile_key hcolon]
            exact hname
  | @goesOn run a key value piece hsaid ih =>
      -- The last attribute keeps its name, and the line has none.
      constructor
      · rintro ⟨line, hline, hstart, hmark, hname⟩
        rcases List.mem_append.mp hline with hline | hline
        · obtain ⟨p, hp, hp'⟩ := ih.mp ⟨line, hline, hstart, hmark, hname⟩
          rcases List.mem_append.mp hp with hp | hp
          · exact ⟨p, List.mem_append_left _ hp, hp'⟩
          · rw [List.mem_singleton.mp hp] at hp'
            exact ⟨_, List.mem_append_right _ List.mem_cons_self, hp'⟩
        · rw [List.mem_singleton.mp hline] at hstart
          exact absurd rfl hstart
      · rintro ⟨p, hp, hname⟩
        have hbefore : ∃ p ∈ a ++ [(key, value)],
            p.1.toList.map Char.toUpper = ['N', 'A', 'M', 'E'] := by
          rcases List.mem_append.mp hp with hp | hp
          · exact ⟨p, List.mem_append_left _ hp, hname⟩
          · rw [List.mem_singleton.mp hp] at hname
            exact ⟨_, List.mem_append_right _ List.mem_cons_self, hname⟩
        obtain ⟨line, hline, hline'⟩ := ih.mpr hbefore
        exact ⟨line, List.mem_append_left _ hline, hline'⟩

end Says

/-- Looking up the name of a section fails where nothing is called so. -/
theorem get?_name_eq_none_iff {a : Attributes} :
    a.get? "Name" = none ↔ ¬ ∃ p ∈ a, p.1.toList.map Char.toUpper = ['N', 'A', 'M', 'E'] := by
  unfold Attributes.get?
  rw [Option.map_eq_none_iff, List.find?_eq_none]
  constructor
  · rintro h ⟨p, hp, hname⟩
    exact h p hp (Attributes.sameName_name_iff.mpr hname)
  · intro h p hp hname
    exact h ⟨p, hp, Attributes.sameName_name_iff.mp hname⟩

namespace Offence

variable {later : Bool} {start number : Nat} {run first : Run} {more : List Run}
  {fault : ManifestFault}

/-- An offence is at or behind the line that the runs start with. -/
theorem start_le (h : Offence later start more number fault) : start ≤ number := by
  induction h with
  | line _ => omega
  | unnamed _ _ => omega
  | @unnamedLast start run hrun _ =>
      have hlength := List.length_pos_iff.mpr hrun
      omega
  | behind _ ih => omega

/-- Among the accepted lines in front there is no offence. -/
theorem length_le (haccepted : ∀ before line after, run = before ++ line :: after →
      Accepted before line) (hgoes : first ≠ [] ∨ more ≠ [])
    (h : Offence later start ((run ++ first) :: more) number fault) :
    start + run.length ≤ number := by
  generalize hall : run ++ first = all at h
  cases h with
  | @line _ _ before after line _ _ hfault =>
      refine Nat.add_le_add_left (Nat.le_of_not_lt fun hlt => ?_) start
      -- A line in front of the border is one of the accepted ones.
      rcases List.append_eq_append_iff.mp hall with ⟨between, rfl, _⟩ | ⟨between, rfl, hrest⟩
      · rw [List.length_append] at hlt
        omega
      · rcases between with _ | ⟨next, between⟩
        · rw [List.append_nil] at hlt
          omega
        · rw [(List.cons.inj hrest).1] at hfault
          exact accepted_iff.mp (haccepted before next between rfl) _ hfault
  | unnamed _ _ =>
      rw [← hall, List.length_append]
      omega
  | unnamedLast _ _ =>
      -- It is the last of all, so there is another line behind those in front.
      have hlength := List.length_pos_iff.mpr (hgoes.resolve_right fun hnil => hnil rfl)
      rw [← hall, List.length_append]
      omega
  | behind hbehind =>
      have hle := hbehind.start_le
      rw [← hall, List.length_append] at hle
      omega

/-- There is an offence unless all lines are accepted and all later runs have a name. -/
theorem none_iff {runs : List Run} :
    (∀ number fault, ¬ Offence later start runs number fault) ↔
      (∀ run ∈ runs, ∀ before line after, run = before ++ line :: after → Accepted before line) ∧
        ∀ run ∈ if later then runs else runs.tail, run ≠ [] → Named run := by
  -- The induction is on the runs. Behind the first one they are all later ones.
  induction runs generalizing later start with
  | nil =>
      refine ⟨fun _ => ⟨fun run hrun => absurd hrun List.not_mem_nil, fun run hrun => ?_⟩,
        fun _ number fault h => nomatch h⟩
      cases later <;> exact absurd hrun List.not_mem_nil
  | cons run more ih =>
      constructor
      · intro hnone
        have hmore := (@ih true (start + run.length + 1)).mp
          fun number fault h => hnone number fault h.behind
        have haccepted : ∀ before line after, run = before ++ line :: after →
            Accepted before line := by
          rintro before line after rfl
          exact accepted_iff.mpr fun fault hfault => hnone _ fault (.line hfault)
        refine ⟨fun other hother => ?_, fun other hother hsome => ?_⟩
        · rcases List.mem_cons.mp hother with rfl | hother
          · exact haccepted
          · exact hmore.1 other hother
        · cases later with
          | false => exact hmore.2 other hother hsome
          | true =>
              rcases List.mem_cons.mp hother with rfl | hother
              · refine Classical.byContradiction fun hnamed => ?_
                rcases more with _ | ⟨next, more⟩
                · exact hnone _ _ (.unnamedLast hsome hnamed)
                · exact hnone _ _ (.unnamed hsome hnamed)
              · exact hmore.2 other hother hsome
      · rintro ⟨haccepted, hnamed⟩ number fault h
        have hmore := (@ih true (start + run.length + 1)).mpr
          ⟨fun other hother => haccepted other (List.mem_cons_of_mem run hother), by
            cases later with
            | false => exact hnamed
            | true => exact fun other hother => hnamed other (List.mem_cons_of_mem run hother)⟩
        cases h with
        | line hfault =>
            exact accepted_iff.mp (haccepted _ List.mem_cons_self _ _ _ rfl) _ hfault
        | unnamed hsome hno => exact hno (hnamed run List.mem_cons_self hsome)
        | unnamedLast hsome hno => exact hno (hnamed run List.mem_cons_self hsome)
        | behind hbehind => exact hmore number fault hbehind

end Offence

namespace Progress

variable {p q : Progress} {run : Run} {a : Attributes}

/-- A line with a fault is reported. -/
theorem readAttribute_fault (hsaid : Says run a) (hcurrent : p.current = a.reverse) (n : Nat)
    {line : List Char} {fault : ManifestFault} (hfault : LineFault run line fault) :
    p.readAttribute n line = .error (n, fault) := by
  cases hfault with
  | orphan =>
      rw [hsaid.eq_nil_iff.mpr rfl] at hcurrent
      exact readAttribute_orphan hcurrent n _
  | noColon hspace hcolon => exact readAttribute_noColon hspace hcolon p n
  | emptyName => exact readAttribute_emptyName _ p n

/-- An accepted line adds to what the run says. -/
theorem readAttribute_accepted (hsaid : Says run a) (hcurrent : p.current = a.reverse) (n : Nat)
    {line : List Char} (hline : Accepted run line) :
    ∃ b : Attributes, Says (run ++ [line]) b ∧
      p.readAttribute n line = .ok { p with current := b.reverse } := by
  rcases hline with ⟨hspace, hrun⟩ | ⟨hspace, hcolon, hsome⟩
  · obtain ⟨piece, rfl⟩ := List.head?_eq_some_iff.mp hspace
    obtain ⟨front, ⟨key, value⟩, rfl⟩ :=
      (List.eq_nil_or_concat a).resolve_left (hsaid.ne_nil hrun)
    rw [List.concat_eq_append] at hsaid hcurrent
    rw [List.reverse_append, List.reverse_singleton] at hcurrent
    refine ⟨_, hsaid.goesOn, ?_⟩
    rw [readAttribute_more hcurrent, List.reverse_append, List.reverse_singleton]
    rfl
  · -- The name is what is in front of the first colon.
    obtain ⟨key, value, rfl, hkey⟩ := List.eq_append_cons_of_mem hcolon
    have hkeyed := key_ne_nil hsome
    rw [Progress.head?_key hkeyed] at hspace
    refine ⟨_, .begins hsaid hkeyed hspace hkey, ?_⟩
    rw [readAttribute_named hkeyed hspace hkey, hcurrent, List.reverse_append,
      List.reverse_singleton]
    rfl

/-- What the end of a run makes of what has been read. The first run is about the archive. A later
    one is about an entry, or there is nothing in it. -/
inductive Closes (run : Run) : Progress → Progress → Prop
  | main {a current : Attributes} {sections : List (String × Attributes)} : Says run a →
      Closes run { sections, current } { main := some a, sections }
  | blank {main current : Attributes} {sections : List (String × Attributes)} : run = [] →
      Closes run { main := some main, sections, current } { main := some main, sections }
  | entry {main a current : Attributes} {name : String} {sections : List (String × Attributes)} :
      Says run a → a.NamedBy name →
      Closes run { main := some main, sections, current }
        { main := some main, sections := (name, a) :: sections }

/-- The end of a run is reported if it is a later one without a name, and closes it otherwise. -/
theorem endSection_cases (hsaid : Says run a) (hcurrent : p.current = a.reverse) (n : Nat) :
    (p.main.isSome = true ∧ run ≠ [] ∧ ¬ Named run ∧
      p.endSection n = .error (n, .unnamedSection)) ∨
    ∃ q, p.endSection n = .ok q ∧ Closes run p q ∧ q.main.isSome = true ∧ q.current = [] ∧
      (p.main.isSome = true → run ≠ [] → Named run) := by
  obtain ⟨main, sections, current⟩ := p
  have hback : current.reverse = a := by
    rw [show current = a.reverse from hcurrent, List.reverse_reverse]
  rcases main with _ | main
  · -- Nothing is asked of the first run.
    refine Or.inr ⟨_, rfl, ?_, rfl, rfl, fun hmain => absurd hmain Bool.false_ne_true⟩
    rw [hback]
    exact .main hsaid
  -- A run without lines leaves everything as it is, since two blank lines may follow each other.
  by_cases hrun : run = []
  · have ha := hsaid.eq_nil_iff.mpr hrun
    have hnil : current = [] := by rw [show current = a.reverse from hcurrent, ha]; rfl
    subst hnil
    exact Or.inr ⟨_, rfl, .blank hrun, rfl, rfl, fun _ hsome => absurd hrun hsome⟩
  · have hsome : a.isEmpty = false := List.isEmpty_eq_false_iff.mpr (hsaid.ne_nil hrun)
    unfold endSection
    simp only [hback, hsome, Bool.false_eq_true, if_false]
    rcases hname : a.get? "Name" with _ | name
    · refine Or.inl ⟨rfl, hrun, ?_, rfl⟩
      rw [hsaid.named_iff]
      exact get?_name_eq_none_iff.mp hname
    · refine Or.inr ⟨_, rfl, .entry hsaid (Attributes.get?_name_eq_some_iff.mp hname), rfl, rfl,
        fun _ _ => ?_⟩
      rw [hsaid.named_iff]
      refine Decidable.byContradiction fun hnone => ?_
      rw [get?_name_eq_none_iff.mpr hnone] at hname
      exact absurd hname.symm (Option.some_ne_none name)

/-- What the ends of runs make of what has been read, one after the other. -/
inductive Gathers : Progress → List Run → Progress → Prop
  | last {p q : Progress} {run : Run} : Closes run p q → Gathers p [run] q
  | more {p q r : Progress} {run : Run} {more : List Run} : Closes run p q → Gathers q more r →
      Gathers p (run :: more) r

/-- What comes of reading runs: all of them are closed and there is no offence, or the first
    offence is reported. -/
inductive Reading (p : Progress) (start : Nat) (runs : List Run) :
    Except (Nat × ManifestFault) Progress → Prop
  | ok {q : Progress} : (∀ number fault, ¬ Offence p.main.isSome start runs number fault) →
      Gathers p runs q → Reading p start runs (.ok q)
  | error {number : Nat} {fault : ManifestFault} : Offence p.main.isSome start runs number fault →
      (∀ other otherFault, Offence p.main.isSome start runs other otherFault → number ≤ other) →
      Reading p start runs (.error (number, fault))

/-- What is at hand when a run is over has been said by its lines. -/
theorem Closes.of_current {current : Attributes} (h : Closes run { p with current } q) :
    Closes run p q := by
  obtain ⟨main, sections, old⟩ := p
  cases h with
  | main hsaid => exact .main hsaid
  | blank hrun => exact .blank hrun
  | entry hsaid hnamed => exact .entry hsaid hnamed

/-- What is read of the runs does not depend on the attributes gathered before. -/
theorem Reading.of_current {current : Attributes} {start : Nat} {runs : List Run}
    {outcome : Except (Nat × ManifestFault) Progress}
    (h : Reading { p with current } start runs outcome) : Reading p start runs outcome := by
  cases h with
  | ok hnone hgathers =>
      refine .ok hnone ?_
      cases hgathers with
      | last hcloses => exact .last hcloses.of_current
      | more hcloses hmore => exact .more hcloses.of_current hmore
  | error hoffence hfirst => exact .error hoffence hfirst

/-- Behind a run that is in order, reading goes on as if the text began there. -/
theorem Reading.behind {start : Nat} {more : List Run} (hmore : more ≠ [])
    (haccepted : ∀ before line after, run = before ++ line :: after → Accepted before line)
    (hnamed : p.main.isSome = true → run ≠ [] → Named run) (hcloses : Closes run p q)
    (hmain : q.main.isSome = true) {outcome : Except (Nat × ManifestFault) Progress}
    (h : Reading q (start + run.length + 1) more outcome) :
    Reading p start (run :: more) outcome := by
  -- An offence of all is one of the runs behind, as the first run has none.
  have hbehind : ∀ {number fault}, Offence p.main.isSome start (run :: more) number fault →
      Offence q.main.isSome (start + run.length + 1) more number fault := by
    intro number fault hoffence
    rw [hmain]
    generalize hlater : p.main.isSome = later at hoffence
    cases hoffence with
    | line hfault => exact absurd hfault (accepted_iff.mp (haccepted _ _ _ rfl) _)
    | unnamed hsome hno => exact absurd (hnamed hlater hsome) hno
    | unnamedLast _ _ => exact absurd rfl hmore
    | behind hoffence => exact hoffence
  cases h with
  | ok hnone hgathers =>
      exact .ok (fun number fault hoffence => hnone number fault (hbehind hoffence))
        (.more hcloses hgathers)
  | error hoffence hfirst =>
      rw [hmain] at hoffence
      exact .error hoffence.behind fun other otherFault hother =>
        hfirst other otherFault (hbehind hother)

/-- Reading stops at the first offence, or closes all runs. The run at hand has been read in part,
    and its lines are in order so far. -/
theorem readLines_reading (hsaid : Says run a) (hcurrent : p.current = a.reverse) (start : Nat)
    (rest : List (List Char)) {first : Run} {more : List Run} (hruns : runs rest = first :: more) :
    Reading p start ((run ++ first) :: more) (p.readLines (start + run.length) rest) := by
  -- The induction is on the lines; a blank one starts the next run.
  induction rest generalizing p run a start first more with
  | nil =>
      rw [runs_nil] at hruns
      obtain ⟨rfl, rfl⟩ := List.cons.inj hruns
      rw [List.append_nil, readLines]
      -- All lines are in order, so the only offence there can be is a name that is missing.
      have hnoLine : ∀ {later number fault}, Offence later start [run] number fault →
          number = start + run.length - 1 ∧ later = true ∧ run ≠ [] ∧ ¬ Named run := by
        intro later number fault hoffence
        cases hoffence with
        | line hfault => exact absurd hfault (accepted_iff.mp (hsaid.accepted rfl) _)
        | unnamedLast hsome hno => exact ⟨rfl, rfl, hsome, hno⟩
        | behind hoffence => cases hoffence
      rcases endSection_cases hsaid hcurrent (start + run.length - 1) with
        ⟨hmain, hsome, hno, hend⟩ | ⟨q, hend, hcloses, _, _, hnamed⟩
      · rw [hend]
        refine .error ?_ fun other _ hother => ?_
        · rw [hmain]
          exact .unnamedLast hsome hno
        · exact Nat.le_of_eq (hnoLine hother).1.symm
      · rw [hend]
        refine .ok (fun number fault hoffence => ?_) (.last hcloses)
        obtain ⟨_, hmain, hsome, hno⟩ := hnoLine hoffence
        exact hno (hnamed hmain hsome)
  | cons line rest ih =>
      obtain ⟨next, others, hrest⟩ := exists_runs rest
      by_cases hblank : line = []
      · subst hblank
        rw [runs_blank, hrest] at hruns
        obtain ⟨rfl, rfl⟩ := List.cons.inj hruns
        rcases endSection_cases hsaid hcurrent (start + run.length) with
          ⟨hmain, hsome, hno, hend⟩ | ⟨q, hend, hcloses, hmain, hnothing, hnamed⟩
        · rw [List.append_nil, readLines, if_pos List.isEmpty_nil, hend]
          refine .error ?_ fun other otherFault hother => ?_
          · rw [hmain]
            exact .unnamed hsome hno
          · rw [← List.append_nil run] at hother
            exact hother.length_le (fun before line after => hsaid.accepted)
              (Or.inr (List.cons_ne_nil _ _))
        · rw [List.append_nil, readLines_blank _ _ hend]
          have hbehind := ih (p := q) .nothing hnothing (start + run.length + 1) hrest
          exact hbehind.behind (List.cons_ne_nil _ _) (fun before line after => hsaid.accepted)
            hnamed hcloses hmain
      · rw [runs_line hblank hrest] at hruns
        obtain ⟨rfl, rfl⟩ := List.cons.inj hruns
        by_cases hline : Accepted run line
        · obtain ⟨b, hsaid', hread⟩ :=
            readAttribute_accepted hsaid hcurrent (start + run.length) hline
          have hgoes := ih (p := { p with current := b.reverse }) hsaid' rfl start hrest
          rw [List.append_assoc, List.length_append] at hgoes
          rw [readLines_line hblank _ _ hread]
          exact hgoes.of_current
        · -- The line is at fault, and none in front of it is.
          obtain ⟨fault, hfault⟩ : ∃ fault, LineFault run line fault :=
            Classical.byContradiction fun hnone =>
              hline (accepted_iff.mpr fun fault hfault => hnone ⟨fault, hfault⟩)
          have hempty : line.isEmpty = false := List.isEmpty_eq_false_iff.mpr hblank
          rw [readLines, hempty, if_neg Bool.false_ne_true,
            readAttribute_fault hsaid hcurrent _ hfault]
          exact .error (.line hfault) fun other otherFault hother =>
            hother.length_le (fun before line after => hsaid.accepted)
              (Or.inl (List.cons_ne_nil _ _))

/-- Of later runs there come sections, in their order. -/
theorem Gathers.sections {main : Attributes} {runs : List Run} (h : Gathers p runs q)
    (hmain : p.main = some main) :
    q.main = some main ∧ ∃ sections, Sections runs sections ∧
      q.sections = sections.reverse ++ p.sections := by
  -- The invariant: sections are gathered in front of those that were there, last first.
  induction h with
  | last hcloses =>
      cases hcloses with
      | main _ => exact absurd hmain.symm (Option.some_ne_none _)
      | blank hrun => exact ⟨hmain, [], by rw [hrun]; exact .blank .nil, rfl⟩
      | entry hsaid hnamed => exact ⟨hmain, [_], .entry hsaid hnamed .nil, rfl⟩
  | more hcloses _ ih =>
      cases hcloses with
      | main _ => exact absurd hmain.symm (Option.some_ne_none _)
      | blank hrun =>
          obtain ⟨hq, sections, hsections, hall⟩ := ih hmain
          exact ⟨hq, sections, by rw [hrun]; exact .blank hsections, hall⟩
      | entry hsaid hnamed =>
          obtain ⟨hq, sections, hsections, hall⟩ := ih hmain
          refine ⟨hq, _, .entry hsaid hnamed hsections, ?_⟩
          rw [hall, List.reverse_cons, List.append_assoc]
          rfl

/-- All runs together make the manifest. -/
theorem Gathers.finish {runs : List Run} (h : Gathers {} runs q) : FromRuns runs q.finish := by
  -- The first run is the main section, whatever it says, and the others are the sections.
  cases h with
  | last hcloses =>
      cases hcloses with
      | main hsaid =>
          refine ⟨fun run hrun => ?_, .nil⟩
          rw [← Option.some.inj hrun]
          exact hsaid
  | more hcloses hmore =>
      cases hcloses with
      | main hsaid =>
          obtain ⟨hmain, sections, hsections, hall⟩ := hmore.sections rfl
          rw [List.append_nil] at hall
          refine ⟨fun run hrun => ?_, ?_⟩
          · rw [← Option.some.inj hrun, Progress.finish, hmain]
            exact hsaid
          · rw [Progress.finish, hall, List.reverse_reverse]
            exact hsections

end Progress

/-- The text of a manifest is accepted by its runs, or the first offence is reported. -/
theorem parse_by_runs (archive : String) (bytes : Bytes) :
    let found := runs (lines (Text.decodeLossy bytes).toList)
    ((∃ m, parse archive bytes = .ok m) ↔ WellFormed found) ∧
    (∀ m, parse archive bytes = .ok m → FromRuns found m) ∧
    (∀ e, parse archive bytes = .error e → ∃ number fault,
      e = .malformedManifest archive number fault ∧ Offence false 1 found number fault ∧
      ∀ other otherFault, Offence false 1 found other otherFault → number ≤ other) := by
  intro found
  obtain ⟨first, more, hruns⟩ := exists_runs (lines (Text.decodeLossy bytes).toList)
  have hfound : found = first :: more := hruns
  have hread : Progress.Reading {} 1 found
      (Progress.readLines {} 1 (lines (Text.decodeLossy bytes).toList)) := by
    rw [hfound]
    exact Progress.readLines_reading .nothing rfl 1 _ hruns
  -- That nothing offends is another way to say that the runs are well formed.
  have hnone : (∀ number fault, ¬ Offence false 1 found number fault) ↔ WellFormed found :=
    Offence.none_iff.trans ⟨fun h => ⟨h.1, h.2⟩, fun h => ⟨h.accepted, h.named⟩⟩
  unfold parse
  rw [ofText_eq]
  generalize Progress.readLines {} 1 (lines (Text.decodeLossy bytes).toList) = outcome at hread
  cases hread with
  | ok hno hgathers =>
      refine ⟨⟨fun _ => hnone.mp hno, fun _ => ⟨_, rfl⟩⟩, fun m hm => ?_,
        fun e he => absurd he.symm error_ne_ok⟩
      rw [← Except.ok.inj hm]
      exact hgathers.finish
  | error hoffence hfirst =>
      refine ⟨⟨fun ⟨m, hm⟩ => absurd hm error_ne_ok,
        fun hwell => absurd hoffence (hnone.mpr hwell _ _)⟩,
        fun m hm => absurd hm error_ne_ok, fun e he => ?_⟩
      exact ⟨_, _, (Except.error.inj he).symm, hoffence, hfirst⟩

/-- A section of the archive that goes on in a second line, and one that has a name. -/
def accepted : Bytes := Text.encode "A: b\n c\n\n\nname: x"

/-- A section without a name, in front of a line without a colon. -/
def offending : Bytes := Text.encode "A: b\n c\n\nC: d\n\nbad"

/-- What is accepted is well formed, and of two offences the first one is reported. -/
theorem parse_by_runs_offending :
    (∃ m, parse "t" accepted = .ok m ∧
      WellFormed (runs (lines (Text.decodeLossy accepted).toList)) ∧
      FromRuns (runs (lines (Text.decodeLossy accepted).toList)) m) ∧
    runs (lines (Text.decodeLossy offending).toList) =
      [[['A', ':', ' ', 'b'], [' ', 'c']], [['C', ':', ' ', 'd']], [['b', 'a', 'd']]] ∧
    parse "t" offending = .error (.malformedManifest "t" 5 .unnamedSection) ∧
    Offence false 1 (runs (lines (Text.decodeLossy offending).toList)) 5 .unnamedSection ∧
    ∀ other otherFault, Offence false 1 (runs (lines (Text.decodeLossy offending).toList))
      other otherFault → 5 ≤ other := by
  have hok : parse "t" accepted = .ok {
      main := [("A", "bc")], sections := [("x", [("name", "x")])] } := by
    decide +kernel
  have herror : parse "t" offending = .error (.malformedManifest "t" 5 .unnamedSection) := by
    decide +kernel
  obtain ⟨hwell, hfrom, _⟩ := parse_by_runs "t" accepted
  obtain ⟨number, fault, hsame, hoffence, hfirst⟩ := (parse_by_runs "t" offending).2.2 _ herror
  obtain ⟨_, rfl, rfl⟩ := Error.malformedManifest.inj hsame
  exact ⟨⟨_, hok, hwell.mp ⟨_, hok⟩, hfrom _ hok⟩, by decide +kernel, herror, hoffence, hfirst⟩

/-- The colon that ends a name is the first one of its line, so it is not enough that another one
    has something in front of it. -/
theorem nameless_rejected :
    runs (lines (Text.decodeLossy (Text.encode ":a:b")).toList) = [[[':', 'a', ':', 'b']]] ∧
    [':', 'a', ':', 'b'].head? ≠ some ' ' ∧
    (∃ before after, [':', 'a', ':', 'b'] = before ++ ':' :: after ∧ before ≠ []) ∧
    parse "t" (Text.encode ":a:b") = .error (.malformedManifest "t" 1 .emptyName) :=
  ⟨by decide +kernel, by decide, ⟨[':', 'a'], ['b'], rfl, List.cons_ne_nil _ _⟩,
    by decide +kernel⟩

end Manifest

end NestedZip
