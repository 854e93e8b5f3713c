import NestedZip.Manifest

/-!
# Lines That Are Written and Read Back

The lines of a text that somebody has put together from lines.

A line may end in one of three ways, and the longest of them is the other two
in a row. So a text that was put together with carriage returns only is read
back because what comes behind one of them is not a line feed, and for that no
line may start with one. Lines without any line ends in them are more than is
needed, and they are what all texts fall into.

The last line is special. Nothing has to end it if it is there to be seen, and
a text of one line end only is one line which is empty, not none.

## Main definitions

* `Manifest.Plain`: Characters none of which ends a line.
* `Manifest.Ended`, `Manifest.Stopped`: Texts behind which a line starts, and in which none goes on.
* `Manifest.LineEnd`: A way to end a line.
* `Manifest.LineEnd.text`: Lines put together.

## Theorems

* `Manifest.plain_of_mem_lines`: No line of a text has a line end in it.
* `Manifest.linesFrom_append_of_ended`: Where a line starts, a text may be cut.
* `Manifest.LineEnd.lines_text`: Lines that were put together are read back.
-/

namespace NestedZip

namespace Manifest

/-- Characters none of which ends a line. -/
structure Plain (text : List Char) : Prop where
  noReturn : '\r' ∉ text
  noFeed : '\n' ∉ text

instance (text : List Char) : Decidable (Plain text) :=
  decidable_of_iff ('\r' ∉ text ∧ '\n' ∉ text)
    ⟨fun h => ⟨h.1, h.2⟩, fun h => ⟨h.noReturn, h.noFeed⟩⟩

theorem Plain.nil : Plain [] := ⟨List.not_mem_nil, List.not_mem_nil⟩

theorem Plain.of_subset {text part : List Char} (h : Plain text) (hpart : ∀ c ∈ part, c ∈ text) :
    Plain part :=
  ⟨fun hc => h.noReturn (hpart _ hc), fun hc => h.noFeed (hpart _ hc)⟩

/-- Two texts put together have no line end if neither has one. -/
theorem plain_append_iff {front rest : List Char} :
    Plain (front ++ rest) ↔ Plain front ∧ Plain rest := by
  constructor
  · intro h
    exact ⟨h.of_subset fun c hc => List.mem_append_left rest hc,
      h.of_subset fun c hc => List.mem_append_right front hc⟩
  · rintro ⟨hfront, hrest⟩
    refine ⟨?_, ?_⟩
    · intro hc
      exact (List.mem_append.mp hc).elim hfront.noReturn hrest.noReturn
    · intro hc
      exact (List.mem_append.mp hc).elim hfront.noFeed hrest.noFeed

/-- A text has no line end if its first character is none and the others have none. -/
theorem plain_cons_iff {c : Char} {text : List Char} :
    Plain (c :: text) ↔ c ≠ '\r' ∧ c ≠ '\n' ∧ Plain text := by
  constructor
  · intro h
    refine ⟨?_, ?_, h.of_subset fun d hd => List.mem_cons_of_mem c hd⟩
    · rintro rfl
      exact h.noReturn List.mem_cons_self
    · rintro rfl
      exact h.noFeed List.mem_cons_self
  · rintro ⟨hreturn, hfeed, htext⟩
    refine ⟨?_, ?_⟩
    · intro hc
      exact (List.mem_cons.mp hc).elim (fun h => hreturn h.symm) htext.noReturn
    · intro hc
      exact (List.mem_cons.mp hc).elim (fun h => hfeed h.symm) htext.noFeed

theorem plain_reverse_iff {text : List Char} : Plain text.reverse ↔ Plain text := by
  constructor
  · intro h
    exact h.of_subset fun c hc => List.mem_reverse.mpr hc
  · intro h
    exact h.of_subset fun c hc => List.mem_reverse.mp hc

/-- A character that ends no line is one more of the line. -/
theorem linesFrom_cons {c : Char} (hreturn : c ≠ '\r') (hfeed : c ≠ '\n') (rest line : List Char) :
    linesFrom (c :: rest) line = linesFrom rest (c :: line) := by
  rw [linesFrom]
  · intro _ h
    exact absurd h hreturn
  · intro h
    exact absurd h hreturn
  · intro h
    exact absurd h hfeed

/-- Characters without a line end are gathered for the line that is being read. -/
theorem linesFrom_append {front : List Char} (h : Plain front) (rest line : List Char) :
    linesFrom (front ++ rest) line = linesFrom rest (front.reverse ++ line) := by
  induction front generalizing line with
  | nil => rfl
  | cons c front ih =>
      obtain ⟨hreturn, hfeed, hfront⟩ := plain_cons_iff.mp h
      rw [List.cons_append, linesFrom_cons hreturn hfeed, ih hfront, List.reverse_cons,
        List.append_assoc]
      rfl

/-- The induction follows the reading, and the line that is being read has no line end
    in it either. -/
theorem plain_of_mem_linesFrom {text line found : List Char} (h : Plain line)
    (hfound : found ∈ linesFrom text line) : Plain found := by
  -- A line that is over had no line end, and the next one starts empty.
  induction text, line using linesFrom.induct with
  | case1 =>
      rw [linesFrom] at hfound
      exact absurd hfound List.not_mem_nil
  | case2 line hline =>
      rw [linesFrom.eq_2 line hline] at hfound
      rw [List.mem_singleton.mp hfound]
      exact plain_reverse_iff.mpr h
  | case3 rest line ih =>
      rw [linesFrom.eq_3] at hfound
      rcases List.mem_cons.mp hfound with rfl | hrest
      · exact plain_reverse_iff.mpr h
      · exact ih Plain.nil hrest
  | case4 rest line hlone ih =>
      rw [linesFrom.eq_4 line rest hlone] at hfound
      rcases List.mem_cons.mp hfound with rfl | hrest
      · exact plain_reverse_iff.mpr h
      · exact ih Plain.nil hrest
  | case5 rest line ih =>
      rw [linesFrom.eq_5] at hfound
      rcases List.mem_cons.mp hfound with rfl | hrest
      · exact plain_reverse_iff.mpr h
      · exact ih Plain.nil hrest
  | case6 c rest line hboth hreturn hfeed ih =>
      rw [linesFrom.eq_6 line c rest hboth hreturn hfeed] at hfound
      exact ih (plain_cons_iff.mpr ⟨hreturn, hfeed, h⟩) hfound

/-- No line of a text has a line end in it. -/
theorem plain_of_mem_lines {text line : List Char} (h : line ∈ lines text) : Plain line :=
  plain_of_mem_linesFrom Plain.nil h

/-- A text behind which a line starts: it is empty, or a line end comes last. -/
def Ended (text : List Char) : Prop :=
  text = [] ∨ text.getLast? = some '\r' ∨ text.getLast? = some '\n'

/-- What a line end closes is closed behind any other character as well. -/
theorem ended_of_cons {c : Char} {text : List Char} (h : Ended (c :: text))
    (hc : c ≠ '\r') (hc' : c ≠ '\n') : Ended text ∧ text ≠ [] := by
  rcases text with _ | ⟨d, text⟩
  · rcases h with h | h | h
    · exact absurd h (List.cons_ne_nil _ _)
    · exact absurd (Option.some.inj h) hc
    · exact absurd (Option.some.inj h) hc'
  · rw [Ended, List.getLast?_cons_cons] at h
    exact ⟨Or.inr (h.resolve_left (List.cons_ne_nil _ _)), List.cons_ne_nil _ _⟩

theorem ended_of_lineEnd {c : Char} {text : List Char} (h : Ended (c :: text)) : Ended text := by
  rcases text with _ | ⟨d, text⟩
  · exact Or.inl rfl
  · rw [Ended, List.getLast?_cons_cons] at h
    exact Or.inr (h.resolve_left (List.cons_ne_nil _ _))

/-- Where a line starts, the lines in front and the lines behind are apart. -/
theorem linesFrom_append_of_ended {text rest : List Char} (hrest : rest.head? ≠ some '\n')
    {line : List Char} (hended : Ended text) (hline : text = [] → line = []) :
    linesFrom (text ++ rest) line = linesFrom text line ++ linesFrom rest [] := by
  -- Behind the last line end there is nothing left of the line that is being read.
  induction text, line using linesFrom.induct with
  | case1 => rfl
  | case2 line hsome => exact absurd (hline rfl) hsome
  | case3 text line ih =>
      rw [linesFrom.eq_3, List.cons_append, List.cons_append, linesFrom.eq_3,
        ih (ended_of_lineEnd (ended_of_lineEnd hended)) fun _ => rfl, List.cons_append]
  | case4 text line hlone ih =>
      have hlone' : ∀ more, text ++ rest = '\n' :: more → False := by
        intro more hsame
        rcases text with _ | ⟨c, text⟩
        · rw [List.nil_append] at hsame
          exact hrest (by rw [hsame]; rfl)
        · exact hlone text (by rw [(List.cons.inj hsame).1])
      rw [linesFrom.eq_4 line text hlone, List.cons_append, linesFrom.eq_4 line _ hlone',
        ih (ended_of_lineEnd hended) fun _ => rfl, List.cons_append]
  | case5 text line ih =>
      rw [linesFrom.eq_5, List.cons_append, linesFrom.eq_5,
        ih (ended_of_lineEnd hended) fun _ => rfl, List.cons_append]
  | case6 c text line hboth hreturn hfeed ih =>
      obtain ⟨hended, hsome⟩ := ended_of_cons hended hreturn hfeed
      rw [List.cons_append, linesFrom_cons hreturn hfeed, linesFrom_cons hreturn hfeed,
        ih hended fun hnil => absurd hnil hsome]

/-- A text in which the line that is being read does not go on. -/
def Stopped (text : List Char) : Prop :=
  ∀ c, text.head? = some c → c = '\r' ∨ c = '\n'

/-- A text goes on with the rest of a line and then stops. -/
theorem exists_plain_append (text : List Char) :
    ∃ line rest, text = line ++ rest ∧ Plain line ∧ Stopped rest := by
  induction text with
  | nil => exact ⟨[], [], rfl, Plain.nil, fun c hc => absurd hc.symm (Option.some_ne_none c)⟩
  | cons c text ih =>
      by_cases hc : c = '\r' ∨ c = '\n'
      · refine ⟨[], c :: text, rfl, Plain.nil, fun d hd => ?_⟩
        rw [← Option.some.inj hd]
        exact hc
      · obtain ⟨line, rest, rfl, hline, hrest⟩ := ih
        rw [not_or] at hc
        exact ⟨c :: line, rest, rfl, plain_cons_iff.mpr ⟨hc.1, hc.2, hline⟩, hrest⟩

/-- The line that is being read ends, and what comes behind does not depend on it. -/
theorem linesFrom_of_stopped {text : List Char} (h : Stopped text) :
    ∃ more, ∀ line, line ≠ [] → linesFrom text line = line.reverse :: more := by
  rcases text with _ | ⟨c, text⟩
  · exact ⟨[], fun line hline => linesFrom.eq_2 line hline⟩
  · rcases h c rfl with rfl | rfl
    · by_cases hboth : ∃ rest, text = '\n' :: rest
      · obtain ⟨rest, rfl⟩ := hboth
        exact ⟨linesFrom rest [], fun line _ => linesFrom.eq_3 line rest⟩
      · exact ⟨linesFrom text [], fun line _ =>
          linesFrom.eq_4 line text fun rest hrest => hboth ⟨rest, hrest⟩⟩
    · exact ⟨linesFrom text [], fun line _ => linesFrom.eq_5 line text⟩

/-- The three ways to end a line: a line feed, a carriage return with a line feed behind it,
    or a carriage return. -/
inductive LineEnd where
  | lf
  | crlf
  | cr
deriving DecidableEq, Repr

namespace LineEnd

def chars : LineEnd → List Char
  | lf => ['\n']
  | crlf => ['\r', '\n']
  | cr => ['\r']

/-- Lines put together, with a line end between any two of them, and perhaps one more
    at the end. -/
def text (e : LineEnd) (final : Bool) (lines : List (List Char)) : List Char :=
  List.intercalate e.chars lines ++ if final then e.chars else []

theorem text_cons_cons (e : LineEnd) (final : Bool) (line next : List Char)
    (rest : List (List Char)) :
    e.text final (line :: next :: rest) = line ++ (e.chars ++ e.text final (next :: rest)) := by
  simp only [text, List.intercalate, List.intersperse, List.flatten_cons, List.append_assoc]

/-- With a line end behind the last line as well there is one behind each. -/
theorem text_true (e : LineEnd) {lines : List (List Char)} (hsome : lines ≠ []) :
    e.text true lines = lines.flatMap fun line => line ++ e.chars := by
  induction lines with
  | nil => exact absurd rfl hsome
  | cons line rest ih =>
      cases rest with
      | nil => simp only [text, List.intercalate, List.intersperse, List.flatten_singleton,
          if_true, List.flatMap_singleton]
      | cons next rest =>
          rw [text_cons_cons, ih (List.cons_ne_nil next rest)]
          simp only [List.flatMap_cons, List.append_assoc]

/-- A line end ends the line, unless it is a carriage return in front of a line feed. -/
theorem linesFrom_chars (e : LineEnd) {rest : List Char} (h : e = cr → rest.head? ≠ some '\n')
    (line : List Char) :
    linesFrom (e.chars ++ rest) line = line.reverse :: linesFrom rest [] := by
  cases e with
  | lf => exact linesFrom.eq_5 line rest
  | crlf => exact linesFrom.eq_3 line rest
  | cr =>
      refine linesFrom.eq_4 line rest ?_
      rintro more rfl
      exact h rfl rfl

/-- With carriage returns only, there is no line feed anywhere. -/
theorem feed_not_mem_text {e : LineEnd} (he : e = cr) {final : Bool}
    {lines : List (List Char)} (hlines : ∀ line ∈ lines, Plain line) :
    '\n' ∉ e.text final lines := by
  -- The line ends are carriage returns, and the lines have no line feed to begin with.
  subst he
  have hchars : '\n' ∉ cr.chars := by decide
  induction lines with
  | nil =>
      cases final with
      | false => exact List.not_mem_nil
      | true => exact hchars
  | cons line rest ih =>
      have hline := (hlines line List.mem_cons_self).noFeed
      cases rest with
      | nil =>
          intro hmem
          rcases List.mem_append.mp hmem with hfront | hend
          · rw [List.intercalate, List.intersperse, List.flatten_singleton] at hfront
            exact hline hfront
          · cases final with
            | false => exact absurd hend List.not_mem_nil
            | true => exact hchars hend
      | cons next rest =>
          rw [text_cons_cons]
          intro hmem
          rcases List.mem_append.mp hmem with hfront | hmem
          · exact hline hfront
          · rcases List.mem_append.mp hmem with hend | hmore
            · exact hchars hend
            · exact ih (fun other hother => hlines other (List.mem_cons_of_mem line hother)) hmore

/-- Lines that were put together are read back, if the last one can be seen. -/
theorem lines_text (e : LineEnd) {final : Bool} {lines : List (List Char)} (hsome : lines ≠ [])
    (hlines : ∀ line ∈ lines, Plain line) (hlast : final = false → lines.getLast? ≠ some []) :
    Manifest.lines (e.text final lines) = lines := by
  -- The induction is on the lines, and only the last one looks at what ends the text.
  unfold Manifest.lines
  induction lines with
  | nil => exact absurd rfl hsome
  | cons line rest ih =>
      have hline := hlines line List.mem_cons_self
      cases rest with
      | nil =>
          have hone : e.text final [line] = line ++ if final then e.chars else [] := by
            rw [text, List.intercalate, List.intersperse, List.flatten_singleton]
          rw [hone, linesFrom_append hline, List.append_nil]
          -- Without a line end behind it, the last line is one because it is not empty.
          cases final with
          | false =>
              have hseen : line.reverse ≠ [] := by
                intro hnil
                rw [List.reverse_eq_nil_iff] at hnil
                exact hlast rfl (by rw [hnil]; rfl)
              rw [if_neg (by decide), linesFrom.eq_2 _ hseen, List.reverse_reverse]
          | true =>
              have hnothing : e = cr → ([] : List Char).head? ≠ some '\n' := fun _ h => nomatch h
              have hend := linesFrom_chars e hnothing line.reverse
              rw [List.append_nil] at hend
              rw [if_pos rfl, hend, List.reverse_reverse, linesFrom]
      | cons next rest =>
          have hrest := fun other hother => hlines other (List.mem_cons_of_mem line hother)
          have hfeed : e = cr → (e.text final (next :: rest)).head? ≠ some '\n' :=
            fun he hhead => feed_not_mem_text he hrest (List.mem_of_mem_head? hhead)
          rw [text_cons_cons, linesFrom_append hline, List.append_nil, linesFrom_chars e hfeed,
            List.reverse_reverse, ih (List.cons_ne_nil next rest) hrest hlast]

/-- Without any lines there is nothing to be read, or one line that is empty. -/
theorem lines_text_nil (e : LineEnd) (final : Bool) :
    Manifest.lines (e.text final []) = if final then [[]] else [] := by
  cases e <;> cases final <;> rfl

end LineEnd

end Manifest

end NestedZip
