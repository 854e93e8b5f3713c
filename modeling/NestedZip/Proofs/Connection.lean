import NestedZip.Connection
import NestedZip.Proofs.Resolver
import NestedZip.Proofs.Stream

/-!
# Connecting and Reading

What a new connection does, once it is known what the resolver finds.

Everything a connection is asked goes through what was found for it, so the
work is in the first step. After it the resolver is needed for two things only:
to read an archive outside as it is there now, and to count what was fetched.
For an archive in a buffer the first of them changes nothing, and the second is
one of the steps of a `Run`. A resolver that connections were read from is
therefore one that has merely run on, and what holds over all runs holds
however many connections were read before.

## Main definitions

* `Connection.readToEnd`: The length that is promised, and all that is read.
* `Connection.Delivers`: A new connection promises and brings these bytes.
* `Connection.Fails`: A new connection finds nothing.

## Theorems

* `Connection.locate_of_some`: An entry is looked for in the archive that is found.
* `Connection.readToEnd_of_window`: Reading brings the window that is meant.
* `Connection.delivers_archive`, `Connection.delivers_entry`: The two things meant.
* `Connection.fails_of_findEntry`: An archive is found, and no entry in it.
-/

namespace NestedZip

namespace Connection

open Resolver

/-- The length that is promised, and what reading to the end into a sink then
    brings. -/
def readToEnd (inflate : Decompressor) (sink : Sink) : Connecting (Nat × Delivery) := do
  let length ← contentLength
  let delivery ← content inflate sink
  return (length, delivery)

/-- A new connection promises and brings just these bytes, whatever they are read
    into, and the resolver has run on. -/
def Delivers (free : String → Prop) (start r : Resolver) (l : Locator) (content : Bytes) : Prop :=
  ∀ (inflate : Decompressor) (sink : Sink), ∃ after : Connection × Resolver,
    readToEnd inflate sink ({ locator := l }, r) =
      .ok (content.length, { bytes := content, fetched := content.length }) after ∧
    Run free start after.2

/-- A new connection finds nothing and fails with an error, and the resolver has
    run on. -/
def Fails (free : String → Prop) (start r : Resolver) (l : Locator) (e : Error) : Prop :=
  ∃ after : Connection × Resolver,
    target ({ locator := l }, r) = .error e after ∧ Run free start after.2

/-- The connection for a locator for which something was found. -/
def found (l : Locator) (t : Target) : Connection := { locator := l, state := some (.ok t) }

/-- The length that is promised for what was found. -/
def Target.length (t : Target) : Nat :=
  match t.entry with
  | some e => e.uncompressedSize
  | none => t.handle.archive.size

variable {l : Locator} {r s : Resolver} {h handle : Handle}

/-- Without an entry the target is the archive itself. -/
theorem locate_of_none (hentry : l.entry = none) (hresolve : resolve l r = .ok h s) :
    locate l r = .ok { handle := h, entry := none } s := by
  unfold locate
  rw [Resolving.bind_of_ok hresolve, hentry]
  rfl

/-- Where the archive of a locator is resolved, its entry is looked for in it. -/
theorem locate_of_some {name : Bytes} (hentry : l.entry = some name)
    (hresolve : resolve l r = .ok h s) :
    locate l r =
      match findEntry h.archive name with
      | .ok e => .ok { handle := h, entry := some e } s
      | .error e => .error e s := by
  unfold locate
  rw [Resolving.bind_of_ok hresolve, hentry]
  change (do
    let entry ← some <$> Resolver.liftExcept (findEntry h.archive name)
    return ({ handle := h, entry } : Target) : Resolving Target) s = _
  cases findEntry h.archive name with
  | ok e => rfl
  | error e => rfl

theorem target_of_ok {t : Target} (hlocate : locate l r = .ok t s) :
    target ({ locator := l }, r) = .ok t (found l t, s) := by
  simp only [target, hlocate, found]

theorem target_of_error {e : Error} (hlocate : locate l r = .error e s) :
    target ({ locator := l }, r) = .error e ({ locator := l, state := some (.error e) }, s) := by
  simp only [target, hlocate]

/-- What was found is found again, and nothing happens. -/
theorem target_of_target {t : Target} {c c' : Connection × Resolver} (h : target c = .ok t c') :
    target c' = .ok t c' := by
  obtain ⟨c, r⟩ := c
  unfold target at h ⊢
  -- What was found once is remembered, and what failed before did not give this target.
  rcases hstate : c.state with _ | _ | found
  · simp only [hstate] at h
    rcases hlocate : locate c.locator r with ⟨found, s⟩ | ⟨e, s⟩
    · simp only [hlocate, EStateM.Result.ok.injEq] at h
      obtain ⟨rfl, rfl⟩ := h
      rfl
    · simp only [hlocate, reduceCtorEq] at h
  · simp only [hstate, reduceCtorEq] at h
  · simp only [hstate, EStateM.Result.ok.injEq] at h
    obtain ⟨rfl, rfl⟩ := h
    simp only [hstate]

/-- Who has got an archive once gets it again. -/
theorem archive_of_archive {c c' : Connection × Resolver} (h : archive c = .ok handle c') :
    archive c' = .ok handle c' := by
  obtain ⟨t, s, htarget, hhandle⟩ := Resolving.bind_eq_ok_iff.mp h
  obtain ⟨rfl, rfl⟩ := EStateM.Result.ok.inj hhandle
  exact Resolving.bind_eq_ok_iff.mpr ⟨t, _, target_of_target htarget, rfl⟩

/-- The archive as it is now is that of the handle. -/
theorem presentArchive_of_archive {c c' : Connection × Resolver} (h : archive c = .ok handle c') :
    presentArchive c = .ok (c'.2.present handle) c' := by
  unfold presentArchive
  rw [Resolving.bind_of_ok h]
  rfl

/-- The manifest is read from the archive as it is by then, and paid for by its source. -/
theorem manifest_of_archive {c c' : Connection × Resolver} (h : archive c = .ok handle c')
    (inflate : Decompressor) :
    manifest inflate c =
      charge handle.source ((c'.2.present handle).manifest inflate) c' := by
  unfold manifest
  rw [Resolving.bind_of_ok (presentArchive_of_archive h),
    Resolving.bind_of_ok (archive_of_archive h)]

/-- What is read is answered if it can be. -/
theorem charge_eq_ok_iff {α : Type} {source : Nat} {m : Metered Error α} {a : α}
    {c : Connection × Resolver} :
    (∃ c', charge source m c = .ok a c') ↔ m.outcome = .ok a := by
  unfold charge Resolver.charge
  rcases houtcome : m.outcome with e | b
  · simp only [reduceCtorEq, exists_false]
  · simp only [EStateM.Result.ok.injEq, exists_and_left, exists_eq', and_true, Except.ok.injEq]

/-- The length of the content is that of the target, and nothing is read for it. -/
theorem contentLength_of_ok {t : Target} (hlocate : locate l r = .ok t s) :
    contentLength ({ locator := l }, r) = .ok t.length (found l t, s) := by
  unfold contentLength
  rw [Resolving.bind_of_ok (target_of_ok hlocate)]
  rfl

/-- Content that is all there is read as a whole, and each of its bytes is counted once. -/
theorem content_of_window {t : Target} {s' : Resolver} {w : Window}
    (hwindow : contentWindow (found l t, s) = .ok w (found l t, s')) (hw : w.Intact)
    (inflate : Decompressor) (sink : Sink) :
    content inflate sink (found l t, s) =
      .ok { bytes := w.bytes, fetched := w.length }
        (found l t, { s' with fetched := s'.fetched.modify t.handle.source (· + w.length) }) := by
  unfold content
  rw [Resolving.bind_of_ok hwindow, Window.deliver_of_intact hw inflate sink]
  rfl

/-- Reading brings the window that is meant, if its length is the one promised,
    and all of it is fetched. -/
theorem readToEnd_of_window {t : Target} {s' : Resolver} {w : Window}
    (hlocate : locate l r = .ok t s)
    (hwindow : contentWindow (found l t, s) = .ok w (found l t, s')) (hw : w.Intact)
    (hlength : t.length = w.length) (inflate : Decompressor) (sink : Sink) :
    readToEnd inflate sink ({ locator := l }, r) =
      .ok (w.bytes.length, { bytes := w.bytes, fetched := w.bytes.length })
        (found l t, { s' with fetched := s'.fetched.modify t.handle.source (· + w.length) }) := by
  unfold readToEnd
  rw [Resolving.bind_of_ok (contentLength_of_ok hlocate),
    Resolving.bind_of_ok (content_of_window hwindow hw inflate sink), hlength,
    Window.length_bytes hw]
  rfl

/-- The content of an archive in a buffer is the whole of it. -/
theorem contentWindow_archive (l : Locator) {s : Resolver} (hbuffer : h.address = none) :
    contentWindow (found l { handle := h, entry := none }, s) =
      .ok h.archive.window (found l { handle := h, entry := none }, s) := by
  change EStateM.Result.ok (s.present h).window _ = _
  rw [present_of_buffer s hbuffer]

/-- The content of an entry is its data, if it is no directory. -/
theorem contentWindow_entry (l : Locator) {s : Resolver} {e : Entry} {w : Window} {cost : Nat}
    (hbuffer : h.address = none) (hdirectory : e.isDirectory = false)
    (hdata : h.archive.recordData e = { outcome := .ok w, fetched := cost }) :
    contentWindow (found l { handle := h, entry := some e }, s) =
      .ok w (found l { handle := h, entry := some e },
        { s with fetched := s.fetched.modify h.source (· + cost) }) := by
  change (if e.isDirectory then
      throw (.notAFile (s.present h).url e.displayName)
    else charge h.source ((s.present h).recordData e) : Connecting Window) _ = _
  -- A buffer does not change, so what was opened is what there is now.
  rw [hdirectory, if_neg Bool.false_ne_true, present_of_buffer s hbuffer, hdata]
  rfl

/-- A run may go on with resolving a locator. -/
theorem run_resolve {free : String → Prop} {start : Resolver} (hrun : Run free start r)
    (hresolve : resolve l r = .ok h s) : Run free start s := by
  have hafter := hrun.resolve l
  rw [after, hresolve] at hafter
  exact hafter

variable {free : String → Prop} {start : Resolver}

/-- A locator without an entry means the archive that is found for it. -/
theorem delivers_archive (hrun : Run free start r) (hentry : l.entry = none)
    (hresolve : resolve l r = .ok h s) (hbuffer : h.address = none) (hw : h.archive.window.Intact) :
    Delivers free start r l h.archive.window.bytes := by
  intro inflate sink
  have hlocate := locate_of_none hentry hresolve
  have hsize : h.archive.size = h.archive.window.length := by
    rw [Archive.size, Window.size, hw.plain, Option.getD_none]
  have hread := readToEnd_of_window hlocate (contentWindow_archive l hbuffer) hw hsize
    inflate sink
  exact ⟨_, hread, (run_resolve hrun hresolve).fetch _ _⟩

/-- A locator with an entry means the data of the entry that is found in the
    archive. -/
theorem delivers_entry {name : Bytes} {e : Entry} {w : Window} {cost : Nat}
    (hrun : Run free start r) (hentry : l.entry = some name)
    (hresolve : resolve l r = .ok h s) (hbuffer : h.address = none)
    (hfind : findEntry h.archive name = .ok e) (hdirectory : e.isDirectory = false)
    (hdata : h.archive.recordData e = { outcome := .ok w, fetched := cost }) (hw : w.Intact)
    (hsize : e.uncompressedSize = w.length) : Delivers free start r l w.bytes := by
  intro inflate sink
  have hlocate := locate_of_some hentry hresolve
  rw [hfind] at hlocate
  have hread := readToEnd_of_window hlocate (contentWindow_entry l hbuffer hdirectory hdata) hw
    hsize inflate sink
  -- Two things were fetched, the header in front of the data and the data.
  exact ⟨_, hread, ((run_resolve hrun hresolve).fetch _ _).fetch _ _⟩

/-- A locator of an entry that is not in its archive leads to nothing. -/
theorem fails_of_findEntry {name : Bytes} {e : Error} (hrun : Run free start r)
    (hentry : l.entry = some name) (hresolve : resolve l r = .ok h s)
    (hfind : findEntry h.archive name = .error e) : Fails free start r l e := by
  have hlocate := locate_of_some hentry hresolve
  rw [hfind] at hlocate
  exact ⟨_, target_of_error hlocate, run_resolve hrun hresolve⟩

end Connection

end NestedZip
