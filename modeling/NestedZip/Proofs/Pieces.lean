import NestedZip.Proofs.Packing.RoundTrip
import NestedZip.Proofs.Paced
import NestedZip.Proofs.Resolving.Walk

/-!
# Sources That Bring Little at Once

How much a source brings at once changes no answer.

A read may bring fewer bytes than were asked for, and whoever reads has to go on
from where it stopped. If the place and the room did not move along together,
some answer would depend on where a read happened to be cut off. So a source is
compared with one of the same bytes that never brings more than some number of
them at once, down to a single one. Neither source needs to have as many bytes as
it claims. A read then fails where the bytes end, and it has to fail at the same
place with both.

Nothing that reads at a position can tell the two apart, since
`Backing.readExactAt` answers by the bytes alone. What remains is that every
operation reads by it and by nothing else, and that the windows that come out
of an operation are windows of either source. `inPieces` puts the one source in
place of the other, in a window and in an archive, and each operation commutes
with it: the outcome is the same, with `inPieces` under it, and the same number
of bytes is fetched.

Reading from front to back is a loop over reads that name the room there is.
`Stream.pour` is this loop with a sink, whose room grows as it fills. Whatever
rooms are named, it brings what `Stream.drain` brings, which names all that is
left. So does a source that brings another number of bytes in each read.

## Main definitions

* `Backing.inPieces`, `Window.inPieces`, `Archive.inPieces`: The same, from a source that
  brings little at once.
* `Sink.HasRoom`, `Stream.pour`: Reading to the end through a sink.
* `Archive.SameInPieces`: An archive that is the same in pieces.

## Theorems

* `Backing.readExactAt_inPieces`, `Window.readExactAt_inPieces`: A read at a position.
* `Index.parse_inPieces`: Indexing.
* `Archive.descend_inPieces`: Any number of archives further down.
* `Stream.pour_of_flowing`: Reading to the end, whatever rooms are named.
* `Archive.same_in_pieces`: All operations together.
-/

namespace NestedZip

/-- The source if it brings at most `most` bytes at once. -/
def Backing.inPieces (most : Nat) (b : Backing) : Backing := { b with perRead := some most }

/-- The same window of that source. -/
def Window.inPieces (most : Nat) (w : Window) : Window :=
  { w with backing := w.backing.inPieces most }

/-- The same archive in that source. -/
def Archive.inPieces (most : Nat) (a : Archive) : Archive :=
  { a with window := a.window.inPieces most }

section Positional

variable {most : Nat}

theorem Backing.perRead_inPieces {b : Backing} (hmost : 0 < most) :
    (b.inPieces most).perRead ≠ some 0 := by
  simp only [inPieces, ne_eq, Option.some.injEq]
  omega

/-- A filled read goes by the bytes alone. -/
theorem Backing.readExactAt_inPieces {b : Backing} (hflow : b.perRead ≠ some 0)
    (hmost : 0 < most) (offset count : Nat) :
    (b.inPieces most).readExactAt offset count = b.readExactAt offset count := by
  rw [readExactAt_eq _ (perRead_inPieces hmost), readExactAt_eq _ hflow]
  rfl

namespace Window

variable {w : Window}

/-- Carving reads nothing. -/
theorem carve_inPieces (w : Window) (offset length : Nat) :
    (w.inPieces most).carve offset length = (w.carve offset length).map (inPieces most) := by
  rcases hplain : w.inflatedSize with _ | size
  · have hplain' : (w.inPieces most).inflatedSize = none := hplain
    by_cases hfits : offset + length ≤ w.length
    · rw [carve_of_plain hplain _ _ hfits, carve_of_plain hplain' _ _ hfits]
      rfl
    · rw [carve_of_past hplain hfits, carve_of_past hplain' hfits]
      rfl
  · have hcompressed : (w.inPieces most).inflatedSize = some size := hplain
    rw [carve_of_compressed hplain, carve_of_compressed hcompressed]
    rfl

theorem readExactAt_inPieces (hflow : w.backing.perRead ≠ some 0) (hmost : 0 < most)
    (offset count : Nat) :
    (w.inPieces most).readExactAt offset count = w.readExactAt offset count := by
  unfold readExactAt
  rw [carve_inPieces, ← Metered.map_ofExcept, Metered.bind_of_map]
  refine Metered.bind_congr_of_ok fun part _ => congrArg (Metered.mapError Error.io) ?_
  exact Backing.readExactAt_inPieces hflow hmost part.offset count

end Window

namespace Index

/-- The records are taken from bytes that were read, and a fault names the source. -/
theorem readEntries_inPieces (w : Window) (start base count index position : Nat) (bytes : Bytes)
    (done : List Entry) :
    readEntries (w.inPieces most) start base count index position bytes done =
      readEntries w start base count index position bytes done := by
  induction count generalizing index position bytes done with
  | zero => rfl
  | succ count ih =>
      unfold readEntries
      simp only [ih]
      rfl

variable {w : Window} (hflow : w.backing.perRead ≠ some 0) (hmost : 0 < most)

include hflow hmost

theorem findEndRecord_inPieces : findEndRecord (w.inPieces most) = findEndRecord w := by
  unfold findEndRecord
  simp only [Window.readExactAt_inPieces hflow hmost]
  rfl

/-- Wide end records are looked for alike, whatever comes at once. -/
theorem firstZip64EndRecord_inPieces (stop : Nat) (positions : List Nat) :
    firstZip64EndRecord (w.inPieces most) stop positions =
      firstZip64EndRecord w stop positions := by
  induction positions with
  | nil => rfl
  | cons position positions ih =>
      unfold firstZip64EndRecord
      simp only [Window.readExactAt_inPieces hflow hmost, ih]

theorem findZip64EndRecord_inPieces (endOffset : Nat) :
    findZip64EndRecord (w.inPieces most) endOffset = findZip64EndRecord w endOffset := by
  unfold findZip64EndRecord
  simp only [Window.readExactAt_inPieces hflow hmost, firstZip64EndRecord_inPieces hflow hmost]
  rfl

theorem findBounds_inPieces : findBounds (w.inPieces most) = findBounds w := by
  unfold findBounds
  simp only [findEndRecord_inPieces hflow hmost, findZip64EndRecord_inPieces hflow hmost]

theorem parse_inPieces : parse (w.inPieces most) = parse w := by
  unfold parse
  simp only [findBounds_inPieces hflow hmost, Window.readExactAt_inPieces hflow hmost,
    readEntries_inPieces]
  rfl

end Index

namespace Archive

open Metered

/-- The archive that is opened is the same, on a source that brings pieces. -/
theorem ofWindow_inPieces {w : Window} (hflow : w.backing.perRead ≠ some 0) (hmost : 0 < most)
    (container : String) :
    ofWindow (w.inPieces most) container = (ofWindow w container).map (inPieces most) := by
  unfold ofWindow
  by_cases hcompressed : w.isCompressed
  · have hcompressed' : (w.inPieces most).isCompressed := hcompressed
    rw [if_pos hcompressed, if_pos hcompressed']
    rfl
  · have hcompressed' : ¬ (w.inPieces most).isCompressed := hcompressed
    rw [if_neg hcompressed, if_neg hcompressed', Index.parse_inPieces hflow hmost]
    exact Metered.map_bind fun index _ => (map_pure _ _).symm

theorem ofBacking_inPieces {source : Backing} (hflow : source.perRead ≠ some 0)
    (hmost : 0 < most) :
    ofBacking (source.inPieces most) = (ofBacking source).map (inPieces most) :=
  ofWindow_inPieces (w := .whole source) hflow hmost source.identity

section

variable {a : Archive} (hflow : a.window.backing.perRead ≠ some 0) (hmost : 0 < most)

include hflow hmost

theorem dataOffset_inPieces (e : Entry) : (a.inPieces most).dataOffset e = a.dataOffset e := by
  unfold dataOffset inPieces
  simp only [Window.readExactAt_inPieces hflow hmost]
  rfl

/-- So is the data of its entries. -/
theorem recordData_inPieces (e : Entry) :
    (a.inPieces most).recordData e = (a.recordData e).map (Window.inPieces most) := by
  unfold recordData
  rw [dataOffset_inPieces hflow hmost]
  refine Metered.map_bind fun offset _ => ?_
  cases e.method with
  | stored => exact congrArg ofExcept (Window.carve_inPieces a.window offset e.uncompressedSize)
  | deflated =>
      simp only [inPieces, Window.carve_inPieces]
      rw [← map_ofExcept, bind_of_map]
      exact Metered.map_bind fun part _ => (map_pure _ _).symm
  | unsupported number => rfl

/-- So are the windows of nested archives. -/
theorem nestedSource_inPieces (name : Bytes) :
    (a.inPieces most).nestedSource name = (a.nestedSource name).map (Window.inPieces most) := by
  have hentry : Archive.entry? (a.inPieces most) name = a.entry? name := rfl
  unfold nestedSource
  rw [hentry]
  cases a.entry? name with
  | none => rfl
  | some e =>
      -- The guards read the record alone, which is the same for both.
      simp only
      by_cases hdirectory : e.isDirectory
      · rw [if_pos hdirectory, if_pos hdirectory]
        rfl
      · rw [if_neg hdirectory, if_neg hdirectory]
        by_cases hstored : e.method ≠ .stored
        · rw [if_pos hstored, if_pos hstored]
          rfl
        · rw [if_neg hstored, if_neg hstored]
          exact recordData_inPieces hflow hmost e

/-- And so are these, when they are opened. -/
theorem nestedArchive_inPieces (name : Bytes) :
    (a.inPieces most).nestedArchive name = (a.nestedArchive name).map (inPieces most) := by
  unfold nestedArchive
  rw [nestedSource_inPieces hflow hmost, bind_of_map]
  refine Metered.map_bind fun data hdata => ?_
  -- The data is a part of the window, so it has the same source.
  rcases nestedSource_eq_ok hdata with ⟨offset, length, _, _, rfl⟩
  exact ofWindow_inPieces (w := a.window.part offset length) hflow hmost _

/-- All the archives along a path are in the one source. -/
theorem descend_inPieces (names : List Bytes) :
    (a.inPieces most).descend names = (a.descend names).map (inPieces most) := by
  induction names generalizing a with
  | nil => exact (map_pure _ _).symm
  | cons name names ih =>
      unfold descend at ih ⊢
      rw [List.foldlM_cons, List.foldlM_cons, nestedArchive_inPieces hflow hmost, bind_of_map]
      refine Metered.map_bind fun inner hinner => ih ?_
      rw [(nestedArchive_inside hinner).1]
      exact hflow

/-- The first bytes of a stored entry are the same. -/
theorem startsAsArchive_inPieces {e : Entry} (hstored : e.method = .stored) :
    (a.inPieces most).startsAsArchive e = a.startsAsArchive e := by
  unfold startsAsArchive
  rw [recordData_inPieces hflow hmost, bind_of_map]
  refine bind_congr_of_ok fun data hdata => ?_
  rcases recordData_eq_ok hstored hdata with ⟨offset, _, _, rfl, _⟩
  have hread := Window.readExactAt_inPieces (w := a.window.part offset e.uncompressedSize)
    hflow hmost 0 LocalHeader.signature.length
  rw [hread]

/-- The same entries are libraries. -/
theorem librariesAmong_inPieces (directory : Bytes) (found entries : List Entry) :
    (a.inPieces most).librariesAmong directory found entries =
      a.librariesAmong directory found entries := by
  induction entries generalizing found with
  | nil => rfl
  | cons e rest ih =>
      unfold librariesAmong
      by_cases hmay : mayBeLibrary directory e
      · -- Only what may be a library is read, and that is stored.
        have hstored : e.method = .stored := by
          simp only [mayBeLibrary, Bool.and_eq_true, beq_iff_eq] at hmay
          exact hmay.1.1.2
        rw [if_pos hmay, if_pos hmay, startsAsArchive_inPieces hflow hmost hstored]
        exact bind_congr_of_ok fun starts _ => ih _
      · rw [if_neg hmay, if_neg hmay]
        exact ih found

theorem libraries_inPieces (directory : String) :
    (a.inPieces most).libraries directory = a.libraries directory :=
  librariesAmong_inPieces hflow hmost _ _ _

end

end Archive

end Positional

/-- There is room in the sink, and there always will be. -/
def Sink.HasRoom : Sink → Prop
  | .block size => 0 < size
  | .buffer b => 0 < b.atOnce

namespace Sink

theorem room_pos {sink : Sink} (h : sink.HasRoom) : 0 < sink.room := by
  cases sink with
  | block size => exact h
  | buffer b => exact Buffer.room_pos h

/-- A sink with room has room again when something was put into it. -/
theorem hasRoom_add {sink : Sink} (h : sink.HasRoom) (count : Nat) : (sink.add count).HasRoom := by
  cases sink with
  | block size => exact h
  | buffer b =>
      simp only [HasRoom, add, Buffer.add] at h ⊢
      cases b.probes with
      | true => exact h
      | false =>
          simp only [Bool.false_eq_true, if_false]
          -- A read that filled its room lets the next one ask for twice as much.
          by_cases hfilled : count = b.room ∧ b.atOnce ≤ b.room
          · rw [if_pos hfilled]
            omega
          · rw [if_neg hfilled]
            exact h

theorem hasRoom_keeping (expected : Nat) : (keeping expected).HasRoom := by
  simp only [keeping, HasRoom, Buffer.ofCapacity]
  omega

end Sink

namespace Stream

/-- Reads on to the end, and names the room in a sink for each read. As in `drainFrom`, a
    `fuel` of the bytes left is enough. -/
def pourFrom : (fuel : Nat) → Sink → Stream → (done : Bytes) → (fetched : Nat) → Delivery
  | 0, _, _, done, fetched => { bytes := done.reverse, fetched }
  | fuel + 1, sink, s, done, fetched =>
    match s.read sink.room with
    | { outcome := .error e, .. } => { bytes := done.reverse, failure := some e, fetched }
    | { outcome := .ok ([], _), .. } => { bytes := done.reverse, fetched }
    | { outcome := .ok (piece, rest), fetched := more } =>
      pourFrom fuel (sink.add piece.length) rest (piece.reverse ++ done) (fetched + more)

/-- Reads to the end into a sink. -/
def pour (s : Stream) (sink : Sink) : Delivery := pourFrom (s.stop - s.position) sink s [] 0

/-- Poured into a sink that has room, a stream brings what is left of it. -/
theorem pourFrom_eq {s : Stream} {sink : Sink} (hflow : s.backing.perRead ≠ some 0)
    (hsink : sink.HasRoom) (fuel : Nat) (done : Bytes) (fetched : Nat)
    (hfuel : s.stop - s.position ≤ fuel) :
    pourFrom fuel sink s done fetched = s.remainder done fetched := by
  induction fuel generalizing s sink done fetched with
  | zero => exact drainFrom_eq hflow 0 done fetched hfuel
  | succ fuel ih =>
      unfold pourFrom
      rcases read_cases hflow sink.room (Or.inr (Sink.room_pos hsink)) with
        ⟨hnil, hnone, hread⟩ | ⟨e, hnil, hsome, hread⟩ | ⟨count, hpos, hcount, hread⟩
      · rw [hread, remainder_of_nil hnil, hnone]
      · rw [hread, remainder_of_nil hnil, hsome]
      · have hrest := ih (s := s.skip count) hflow (Sink.hasRoom_add hsink count)
          ((s.left.take count).reverse ++ done) (fetched + count) (by simp only [skip]; omega)
        rw [remainder_skip hcount] at hrest
        -- The piece is as long as the read was, so the sink grows by what was brought.
        have hlength : (s.left.take count).length = count := by
          rw [List.length_take]
          omega
        rw [hread]
        rcases hpiece : s.left.take count with _ | ⟨b, piece⟩
        · rw [hpiece, List.length_nil] at hlength
          omega
        · rw [hpiece] at hrest hlength
          simp only [hlength]
          exact hrest

/-- Whatever rooms are named, reading to the end brings the same. -/
theorem pour_of_flowing {s : Stream} {sink : Sink} (hflow : s.backing.perRead ≠ some 0)
    (hsink : sink.HasRoom) : s.pour sink = s.drain :=
  (pourFrom_eq hflow hsink _ _ _ (Nat.le_refl _)).trans (drain_of_flowing hflow).symm

end Stream

namespace Window

variable {w : Window} {most : Nat}

/-- Reading from front to back brings the same bytes, or fails where the source ends. -/
theorem drain_inPieces (hflow : w.backing.perRead ≠ some 0) (hmost : 0 < most) :
    (w.inPieces most).stream.drain = w.stream.drain := by
  have hflow' : (w.inPieces most).stream.backing.perRead ≠ some 0 :=
    Backing.perRead_inPieces hmost
  rw [Stream.drain_of_flowing hflow', Stream.drain_of_flowing (s := w.stream) hflow]
  rfl

theorem deliver_of_plain (hplain : w.inflatedSize = none) (inflate : Decompressor)
    (sink : Sink) : w.deliver inflate sink = w.stream.drain := by
  unfold deliver isCompressed
  rw [hplain, Option.isSome_none, if_neg Bool.false_ne_true]

theorem readAll_inPieces (hplain : w.inflatedSize = none) (hflow : w.backing.perRead ≠ some 0)
    (hmost : 0 < most) (inflate : Decompressor) :
    (w.inPieces most).readAll inflate = w.readAll inflate := by
  have hplain' : (w.inPieces most).inflatedSize = none := hplain
  have hsize : (w.inPieces most).size = w.size := rfl
  unfold readAll
  rw [deliver_of_plain hplain, deliver_of_plain hplain', drain_inPieces hflow hmost, hsize]

/-- Reading all the bytes at once is reading them into a buffer that grows, if there can be one
    of the size that is claimed. -/
theorem readAll_eq_pour (hplain : w.inflatedSize = none) (hflow : w.backing.perRead ≠ some 0)
    (hsize : w.size < Buffer.limit) (inflate : Decompressor) :
    w.readAll inflate = (w.stream.pour (.keeping w.size)).whole.mapError .io := by
  unfold readAll
  rw [if_pos hsize, deliver_of_plain hplain, Stream.pour_of_flowing (s := w.stream) hflow
    (Sink.hasRoom_keeping w.size)]

end Window

/-- Nothing that is asked of an archive is answered differently, or for another price, if
    its source brings at most `most` bytes at once. -/
structure Archive.SameInPieces (most : Nat) (a : Archive) : Prop where
  readSource : ∀ offset count : Nat,
    (a.inPieces most).window.backing.readExactAt offset count =
      a.window.backing.readExactAt offset count
  readExactAt : ∀ offset count : Nat,
    (a.inPieces most).window.readExactAt offset count = a.window.readExactAt offset count
  readAll : a.window.inflatedSize = none → ∀ inflate : Decompressor,
    (a.inPieces most).window.readAll inflate = a.window.readAll inflate
  pour : ∀ sink : Sink, sink.HasRoom →
    (a.inPieces most).window.stream.pour sink = a.window.stream.pour sink
  /-- Reading all the bytes is one of these, unless no buffer has room for as many as are
      claimed. -/
  poured : a.window.inflatedSize = none → a.window.size < Buffer.limit →
    ∀ inflate : Decompressor,
    a.window.readAll inflate = (a.window.stream.pour (.keeping a.window.size)).whole.mapError .io
  /-- Nor does it matter if each read brings another number of bytes, where one position is read
      at, -/
  filled : ∀ (paces : List Pace) (offset count : Nat), count ≤ paces.length →
    a.window.backing.fillBy paces offset count [] 0 =
      some ((a.inPieces most).window.backing.readExactAt offset count)
  /-- or where all is read from front to back. -/
  streamed : ∀ calls : List Call, (∀ c ∈ calls, 0 < c.room) → a.window.length < calls.length →
    a.window.stream.toEnd calls [] 0 = some (a.inPieces most).window.stream.drain
  opening : ∀ container : String,
    ofWindow (a.inPieces most).window container =
      (ofWindow a.window container).map (inPieces most)
  recordData : ∀ e : Entry,
    (a.inPieces most).recordData e = (a.recordData e).map (Window.inPieces most)
  nestedSource : ∀ name : Bytes,
    (a.inPieces most).nestedSource name = (a.nestedSource name).map (Window.inPieces most)
  libraries : ∀ directory : String,
    (a.inPieces most).libraries directory = a.libraries directory
  descend : ∀ names : List Bytes,
    (a.inPieces most).descend names = (a.descend names).map (inPieces most)

namespace Archive

/-- A source may bring as little at once as it likes, as long as it brings something.
    Neither the size that it claims nor the window matters. -/
theorem same_in_pieces (a : Archive) (most : Nat) (hmost : 0 < most)
    (hflow : a.window.backing.perRead ≠ some 0) : a.SameInPieces most where
  readSource := Backing.readExactAt_inPieces hflow hmost
  readExactAt := Window.readExactAt_inPieces hflow hmost
  readAll hplain inflate := Window.readAll_inPieces hplain hflow hmost inflate
  pour sink hsink := by
    have hflow' : (a.inPieces most).window.stream.backing.perRead ≠ some 0 :=
      Backing.perRead_inPieces hmost
    rw [Stream.pour_of_flowing hflow' hsink,
      Stream.pour_of_flowing (s := a.window.stream) hflow hsink]
    exact Window.drain_inPieces hflow hmost
  poured hplain hsize inflate := Window.readAll_eq_pour hplain hflow hsize inflate
  filled paces offset count hcount := by
    rw [Backing.fillBy_eq_readExactAt hflow hcount]
    exact congrArg some (Backing.readExactAt_inPieces hflow hmost offset count).symm
  streamed calls hrooms hcalls := by
    -- A window shows no more bytes than it is long, so there are calls enough for all of them.
    have hleft : a.window.stream.left.length ≤ a.window.length := by
      rw [Window.left_stream]
      exact List.length_take_le _ _
    rw [Stream.toEnd_eq_drain (s := a.window.stream) hflow hrooms (by omega)]
    exact congrArg some (Window.drain_inPieces hflow hmost).symm
  opening := ofWindow_inPieces hflow hmost
  recordData := recordData_inPieces hflow hmost
  nestedSource := nestedSource_inPieces hflow hmost
  libraries := libraries_inPieces hflow hmost
  descend := descend_inPieces hflow hmost

/-- A window of a source that has three bytes and claims to have five. -/
def overclaimed : Archive where
  window := {
    backing := { identity := "mem:t", content := ⟨#[1, 2, 3]⟩, size := 5 }
    offset := 1
    length := 4 }
  index := { entries := [], baseOffset := 0, directoryOffset := 0 }
  container := "mem:t"

/-- Read byte by byte, it ends too early at the same place, while an archive with another one in it
    is opened, listed and descended into as ever. -/
theorem same_in_pieces_byte_by_byte :
    let source := Backing.memory "app" ⟨(Node.archive Node.boxed).bytes.toArray⟩
    0 < 1 ∧ overclaimed.window.backing.perRead ≠ some 0 ∧ source.perRead ≠ some 0 ∧
      (∀ inflate : Decompressor, (overclaimed.inPieces 1).window.readAll inflate =
        { outcome := .error (.io (.endBeforeStop "mem:t" 3 5)), fetched := 2 }) ∧
      ∃ a : Archive, (ofBacking source).outcome = .ok a ∧ a.SameInPieces 1 ∧
        (ofBacking (source.inPieces 1)).outcome = .ok (a.inPieces 1) ∧
        ((a.inPieces 1).libraries "").outcome.map (List.map Entry.name) = .ok [[0x62]] ∧
        ∃ inner : Archive, ((a.inPieces 1).descend [[0x62]]).outcome = .ok (inner.inPieces 1) ∧
          inner.entries.map Entry.name = [[0x61]] := by
  intro source
  have hflow : overclaimed.window.backing.perRead ≠ some 0 := by decide
  have hsource : source.perRead ≠ some 0 := by decide
  have hshort := same_in_pieces overclaimed 1 Nat.one_pos hflow
  refine ⟨Nat.one_pos, hflow, hsource, fun inflate => ?_, ?_⟩
  · refine (hshort.readAll rfl inflate).trans ?_
    rfl
  -- What the archive holds is computed once, with a source that brings all at once.
  have hlisted : ((ofBacking source).outcome.bind fun a =>
      (a.libraries "").outcome.map (List.map Entry.name)) = .ok [[0x62]] := by decide +kernel
  have hinner : (walk source [[0x62]]).outcome.map (fun a => a.entries.map Entry.name) =
      .ok [[0x61]] := by decide +kernel
  obtain ⟨a, ha, hlibraries⟩ := except_bind_eq_ok_iff.mp hlisted
  have hwindow : a.window = .whole source := ofBacking_eq_ok ha
  have hsame := same_in_pieces a 1 Nat.one_pos (by rw [hwindow]; exact hsource)
  rw [walk_of_ok ha] at hinner
  obtain ⟨inner, hdescend, hnames⟩ : ∃ inner, (a.descend [[0x62]]).outcome = .ok inner ∧
      inner.entries.map Entry.name = [[0x61]] := by
    rcases houtcome : (a.descend [[0x62]]).outcome with e | inner
    · rw [houtcome] at hinner
      exact absurd hinner error_ne_ok
    · rw [houtcome] at hinner
      exact ⟨inner, rfl, Except.ok.inj hinner⟩
  refine ⟨a, ha, hsame, ?_, ?_, inner, ?_, hnames⟩
  · rw [ofBacking_inPieces hsource Nat.one_pos]
    exact Metered.outcome_map_of_ok ha _
  · rw [hsame.libraries]
    exact hlibraries
  · rw [hsame.descend]
    exact Metered.outcome_map_of_ok hdescend _

end Archive

end NestedZip
