import Mathlib.Data.List.Infix
import NestedZip.Proofs.Manifest.Lines

/-!
# Texts by Their Lines

Cutting a text into lines loses nothing but the line ends, and these can be
told from the text.

A text falls into lines with a line end behind each and something that is left
behind the last of them. The only thing that could be cut in more than one way
is a carriage return with a line feed behind it, and it is said to be one line
end. So there is just one way to cut a text, and `FallsInto` says which without
cutting. The lines of the text are then the ended ones, with what is left as
one more unless it is empty.

Reading goes through the characters and keeps the line at hand. The same lines
are had by looking for the next line end, taking what is in front of it, and
going on behind it, until nothing is left. `nextLine?` is one such step, and
`Pulled` is what all of them bring until they end. That they end is a part of
it, for it is an inductive relation.

How many lines there are is a matter of the line ends alone, each of which is
counted at its last character, and of whether the text stops behind one of
them. And since a line end of one kind is as good as one of another, a text may
be converted to any of them.

## Main definitions

* `Manifest.FallsInto`: Ended lines, and what is left behind them.
* `Manifest.nextLine?`, `Manifest.Pulled`: One line at a time.
* `Manifest.endCount`: The number of line ends in a text.
* `Manifest.LineEnd.convert`: The text with line ends of one kind.

## Theorems

* `Manifest.exists_fallsInto`: Every text falls into lines.
* `Manifest.FallsInto.unique`: There is one way to do so.
* `Manifest.FallsInto.lines_eq`: The lines of a text are those that it falls into.
* `Manifest.FallsInto.pulled`: They are brought one at a time, and then no more.
* `Manifest.FallsInto.endCount_eq`: Each ended line has one line end.
* `Manifest.FallsInto.convert`: Converting a text changes its line ends only.
* `Manifest.lines_lose_nothing`: A text, its lines and its line ends.
-/

namespace NestedZip

namespace Manifest

/-- A line and the line end behind it. -/
abbrev EndedLine := List Char × LineEnd

/-- Lines and their line ends, as they stand in a text. -/
def written (ended : List EndedLine) : List Char :=
  ended.flatMap fun line => line.1 ++ line.2.chars

/-- The text is ended lines with something left behind them, which no line end ends. A
    carriage return and a line feed behind it end one line. -/
structure FallsInto (text : List Char) (ended : List EndedLine) (left : List Char) : Prop where
  whole : text = written ended ++ left
  plain : ∀ line ∈ ended, Plain line.1
  plainLeft : Plain left
  together : ∀ front line behind, ended = front ++ (line, .cr) :: behind →
    (written behind ++ left).head? ≠ some '\n'

/-- The lines that are seen of ended lines and what is left behind them. -/
def seen (ended : List EndedLine) (left : List Char) : List (List Char) :=
  ended.map Prod.fst ++ if left = [] then [] else [left]

/-- Whether a character ends a line, be it alone or with another one. -/
def isBreak (c : Char) : Bool := c == '\r' || c == '\n'

/-- The line at the front of a text and what is left of the text behind its line end, or
    nothing if the text is over. -/
def nextLine? (rest : List Char) : Option (List Char × List Char) :=
  if rest.isEmpty then none
  else
    match rest.findIdx? isBreak with
    | some i =>
      let skip := if ['\r', '\n'].isPrefixOf (rest.drop i) then 2 else 1
      some (rest.take i, rest.drop (i + skip))
    | none => some (rest, [])

/-- The lines that are brought one after the other until the text is over. -/
inductive Pulled : (rest : List Char) → List (List Char) → Prop
  | over {rest : List Char} : nextLine? rest = none → Pulled rest []
  | line {rest line left : List Char} {more : List (List Char)} :
      nextLine? rest = some (line, left) → Pulled left more → Pulled rest (line :: more)

/-- Whether the first character of a text is the last one of a line end. -/
def closesLine : List Char → Bool
  | '\n' :: _ => true
  | '\r' :: rest => rest.head? != some '\n'
  | _ => false

/-- The number of line ends in a text. -/
def endCount (text : List Char) : Nat := text.tails.countP closesLine

/-- The text with line ends of this kind. -/
def LineEnd.convert (e : LineEnd) : List Char → List Char
  | [] => []
  | '\r' :: '\n' :: rest => e.chars ++ e.convert rest
  | '\r' :: rest => e.chars ++ e.convert rest
  | '\n' :: rest => e.chars ++ e.convert rest
  | c :: rest => c :: e.convert rest

variable {text line rest left : List Char} {ended : List EndedLine} {e : LineEnd}

theorem written_cons (line : List Char) (e : LineEnd) (ended : List EndedLine)
    (left : List Char) :
    written ((line, e) :: ended) ++ left = line ++ (e.chars ++ (written ended ++ left)) := by
  simp only [written, List.flatMap_cons, List.append_assoc]

/-- A text falls into no lines if it has no line end. -/
theorem fallsInto_nil_iff : FallsInto text [] left ↔ text = left ∧ Plain left := by
  constructor
  · intro h
    exact ⟨h.whole, h.plainLeft⟩
  · rintro ⟨rfl, hleft⟩
    refine ⟨rfl, ?_, hleft, ?_⟩
    · intro line hline
      exact absurd hline List.not_mem_nil
    · intro front line behind hcut
      exact absurd (List.append_eq_nil_iff.mp hcut.symm).2 (List.cons_ne_nil _ _)

/-- The first line and its end stand in front of a text that falls into the others. -/
theorem fallsInto_cons_iff :
    FallsInto text ((line, e) :: ended) left ↔
      ∃ rest, text = line ++ (e.chars ++ rest) ∧ Plain line ∧
        (e = .cr → rest.head? ≠ some '\n') ∧ FallsInto rest ended left := by
  constructor
  · intro h
    refine ⟨written ended ++ left, ?_, h.plain _ List.mem_cons_self, ?_, rfl, ?_, h.plainLeft, ?_⟩
    · rw [h.whole, written_cons]
    · rintro rfl
      exact h.together [] line ended rfl
    · intro other hother
      exact h.plain other (List.mem_cons_of_mem _ hother)
    · rintro front other behind rfl
      exact h.together ((line, e) :: front) other behind rfl
  · rintro ⟨rest, rfl, hline, hfeed, hrest⟩
    refine ⟨?_, ?_, hrest.plainLeft, ?_⟩
    · rw [written_cons, ← hrest.whole]
    · intro other hother
      rcases List.mem_cons.mp hother with rfl | hother
      · exact hline
      · exact hrest.plain other hother
    · intro front other behind hcut
      -- The lone carriage return is the first line end or one of the others.
      rcases List.cons_eq_append_iff.mp hcut with ⟨-, hfirst⟩ | ⟨front', -, hothers⟩
      · rcases List.cons.inj hfirst with ⟨hpair, rfl⟩
        rw [← hrest.whole]
        exact hfeed (Prod.mk.inj hpair).2.symm
      · exact hrest.together front' other behind hothers

/-- The induction follows the reading, with the line that is being read in front. -/
theorem exists_fallsInto_of_line (h : Plain line) :
    ∃ ended left, FallsInto (line.reverse ++ text) ended left := by
  -- The cases are those of the splitting itself, with the line read so far in front of the text.
  induction text, line using linesFrom.induct with
  | case1 => exact ⟨[], [], fallsInto_nil_iff.mpr ⟨rfl, Plain.nil⟩⟩
  | case2 line hsome =>
      refine ⟨[], line.reverse, fallsInto_nil_iff.mpr ⟨List.append_nil _, ?_⟩⟩
      exact plain_reverse_iff.mpr h
  | case3 rest line ih =>
      rcases ih Plain.nil with ⟨ended, left, hrest⟩
      refine ⟨(line.reverse, .crlf) :: ended, left, fallsInto_cons_iff.mpr ⟨rest, rfl, ?_, ?_, ?_⟩⟩
      · exact plain_reverse_iff.mpr h
      · intro hcr
        cases hcr
      · exact hrest
  | case4 rest line hlone ih =>
      rcases ih Plain.nil with ⟨ended, left, hrest⟩
      refine ⟨(line.reverse, .cr) :: ended, left, fallsInto_cons_iff.mpr ⟨rest, rfl, ?_, ?_, ?_⟩⟩
      · exact plain_reverse_iff.mpr h
      · intro _ hfeed
        rcases List.head?_eq_some_iff.mp hfeed with ⟨more, hmore⟩
        exact hlone more hmore
      · exact hrest
  | case5 rest line ih =>
      rcases ih Plain.nil with ⟨ended, left, hrest⟩
      refine ⟨(line.reverse, .lf) :: ended, left, fallsInto_cons_iff.mpr ⟨rest, rfl, ?_, ?_, ?_⟩⟩
      · exact plain_reverse_iff.mpr h
      · intro hcr
        cases hcr
      · exact hrest
  | case6 c rest line hboth hreturn hfeed ih =>
      rcases ih (plain_cons_iff.mpr ⟨hreturn, hfeed, h⟩) with ⟨ended, left, hrest⟩
      rw [List.reverse_cons, List.append_assoc] at hrest
      exact ⟨ended, left, hrest⟩

/-- Every text falls into lines. -/
theorem exists_fallsInto (text : List Char) : ∃ ended left, FallsInto text ended left :=
  exists_fallsInto_of_line Plain.nil

theorem LineEnd.chars_ne_nil (e : LineEnd) : e.chars ≠ [] := by
  cases e <;> exact List.cons_ne_nil _ _

theorem LineEnd.chars_injective {d : LineEnd} (h : e.chars = d.chars) : e = d := by
  cases e <;> cases d <;> first | rfl | exact absurd h (by decide)

theorem isBreak_eq_false (h : Plain line) {c : Char} (hc : c ∈ line) : isBreak c = false := by
  have hreturn : c ≠ '\r' := fun hsame => h.noReturn (hsame ▸ hc)
  have hfeed : c ≠ '\n' := fun hsame => h.noFeed (hsame ▸ hc)
  rw [isBreak, beq_false_of_ne hreturn, beq_false_of_ne hfeed, Bool.or_false]

/-- Without a line end all that is there is the next line. -/
theorem nextLine?_of_plain (h : Plain text) (hsome : text ≠ []) :
    nextLine? text = some (text, []) := by
  have hnone : text.findIdx? isBreak = none :=
    List.findIdx?_eq_none_iff.mpr fun c hc => isBreak_eq_false h hc
  rw [nextLine?, if_neg (fun hempty => hsome (List.isEmpty_iff.mp hempty)), hnone]

/-- The next line is what stands in front of the first line end. -/
theorem nextLine?_of_ended (h : Plain line) (hfeed : e = .cr → rest.head? ≠ some '\n') :
    nextLine? (line ++ (e.chars ++ rest)) = some (line, rest) := by
  have hnone : line.findIdx? isBreak = none :=
    List.findIdx?_eq_none_iff.mpr fun c hc => isBreak_eq_false h hc
  -- Both one and two characters may end the line, and the first of them is found.
  have hfind : (line ++ (e.chars ++ rest)).findIdx? isBreak = some line.length := by
    cases e <;>
      simp only [List.findIdx?_append, hnone, LineEnd.chars, List.cons_append, List.findIdx?_cons,
        isBreak, beq_self_eq_true, Bool.true_or, Bool.or_true, if_true, Option.none_or,
        Option.map_some, Nat.zero_add]
  have hsome : ¬ (line ++ (e.chars ++ rest)).isEmpty := by
    rw [List.isEmpty_iff, List.append_eq_nil_iff, List.append_eq_nil_iff]
    rintro ⟨-, hchars, -⟩
    exact e.chars_ne_nil hchars
  have hskip : (if ['\r', '\n'].isPrefixOf (e.chars ++ rest) then 2 else 1) = e.chars.length := by
    cases e with
    | lf => rfl
    | crlf => rfl
    | cr =>
        rcases rest with _ | ⟨c, rest⟩
        · rfl
        · have hc : ('\n' == c) = false := by
            rw [beq_eq_false_iff_ne]
            rintro rfl
            exact hfeed rfl rfl
          simp only [LineEnd.chars, List.cons_append, List.nil_append, List.isPrefixOf,
            beq_self_eq_true, hc, Bool.false_and, Bool.and_false, Bool.false_eq_true, if_false,
            List.length_singleton]
  rw [nextLine?, if_neg hsome, hfind]
  simp only [List.drop_left, List.take_left, hskip]
  rw [← List.drop_drop, List.drop_left, List.drop_left]

/-- A text that has a line end is not free of them. -/
theorem FallsInto.not_plain (h : FallsInto text ((line, e) :: ended) left) : ¬ Plain text := by
  intro hplain
  rcases fallsInto_cons_iff.mp h with ⟨rest, rfl, -, -, -⟩
  rcases plain_append_iff.mp hplain with ⟨-, hend⟩
  cases e with
  | lf => exact hend.noFeed List.mem_cons_self
  | crlf => exact hend.noReturn List.mem_cons_self
  | cr => exact hend.noReturn List.mem_cons_self

/-- There is one way to cut a text into lines, since the next line is told by the text. -/
theorem FallsInto.unique {others : List EndedLine} {rest : List Char}
    (h : FallsInto text ended left) (hother : FallsInto text others rest) :
    others = ended ∧ rest = left := by
  induction ended generalizing text others with
  | nil =>
      rcases fallsInto_nil_iff.mp h with ⟨rfl, hplain⟩
      cases others with
      | nil => exact ⟨rfl, (fallsInto_nil_iff.mp hother).1.symm⟩
      | cons other others => exact absurd hplain hother.not_plain
  | cons first ended ih =>
      cases others with
      | nil =>
          rcases fallsInto_nil_iff.mp hother with ⟨rfl, hplain⟩
          exact absurd hplain h.not_plain
      | cons other others =>
          rcases fallsInto_cons_iff.mp h with ⟨behind, rfl, hline, hfeed, hbehind⟩
          rcases fallsInto_cons_iff.mp hother with ⟨behind', hsame, hline', hfeed', hbehind'⟩
          -- Both put the first line where one step of the reading finds it.
          have hnext := nextLine?_of_ended hline hfeed
          rw [hsame, nextLine?_of_ended hline' hfeed', Option.some.injEq, Prod.mk.injEq] at hnext
          rcases hnext with ⟨hfirst, rfl⟩
          rw [hfirst, List.append_cancel_left_eq, List.append_cancel_right_eq] at hsame
          rcases ih hbehind hbehind' with ⟨rfl, rfl⟩
          exact ⟨by rw [Prod.ext hfirst (LineEnd.chars_injective hsame.symm)], rfl⟩

/-- An ended line is the first line of a text, and the others are those of the rest. -/
theorem lines_of_ended (h : Plain line) (hfeed : e = .cr → rest.head? ≠ some '\n') :
    lines (line ++ (e.chars ++ rest)) = line :: lines rest := by
  rw [lines, linesFrom_append h, List.append_nil, e.linesFrom_chars hfeed, List.reverse_reverse]
  rfl

/-- A text without a line end is a line, unless it is empty. -/
theorem lines_of_plain (h : Plain text) : lines text = if text = [] then [] else [text] := by
  have hread := linesFrom_append h [] []
  rw [List.append_nil, List.append_nil] at hread
  rw [lines, hread]
  by_cases hnil : text = []
  · rw [if_pos hnil, hnil]
    rfl
  · rw [if_neg hnil, linesFrom.eq_2 _ (fun hrev => hnil (List.reverse_eq_nil_iff.mp hrev)),
      List.reverse_reverse]

/-- The lines of a text are those that it falls into. -/
theorem FallsInto.lines_eq (h : FallsInto text ended left) : lines text = seen ended left := by
  induction ended generalizing text with
  | nil =>
      rcases fallsInto_nil_iff.mp h with ⟨rfl, hplain⟩
      exact lines_of_plain hplain
  | cons first ended ih =>
      rcases fallsInto_cons_iff.mp h with ⟨rest, rfl, hline, hfeed, hrest⟩
      rw [lines_of_ended hline hfeed, ih hrest]
      rfl

/-- Asking for one line after the other brings the lines of a text, and then no more. -/
theorem FallsInto.pulled (h : FallsInto text ended left) : Pulled text (seen ended left) := by
  induction ended generalizing text with
  | nil =>
      rcases fallsInto_nil_iff.mp h with ⟨rfl, hplain⟩
      unfold seen
      by_cases hnil : text = []
      · rw [if_pos hnil, hnil]
        exact .over rfl
      · rw [if_neg hnil]
        exact .line (nextLine?_of_plain hplain hnil) (.over rfl)
  | cons first ended ih =>
      rcases fallsInto_cons_iff.mp h with ⟨rest, rfl, hline, hfeed, hrest⟩
      exact .line (nextLine?_of_ended hline hfeed) (ih hrest)

theorem endCount_cons (c : Char) (text : List Char) :
    endCount (c :: text) = endCount text + if closesLine (c :: text) then 1 else 0 := by
  rw [endCount, List.tails_cons, List.countP_cons]
  rfl

/-- No line is closed by characters that are no line ends. -/
theorem endCount_append (h : Plain line) (rest : List Char) :
    endCount (line ++ rest) = endCount rest := by
  induction line with
  | nil => rfl
  | cons c line ih =>
      rcases plain_cons_iff.mp h with ⟨hreturn, hfeed, hline⟩
      have hc : closesLine (c :: (line ++ rest)) = false := by
        rw [closesLine]
        · intro _ hsame
          exact hfeed (List.cons.inj hsame).1
        · intro _ hsame
          exact hreturn (List.cons.inj hsame).1
      rw [List.cons_append, endCount_cons, ih hline, hc, if_neg Bool.false_ne_true, Nat.add_zero]

/-- A line end is counted once, also if it is two characters. -/
theorem endCount_chars (hfeed : e = .cr → rest.head? ≠ some '\n') :
    endCount (e.chars ++ rest) = endCount rest + 1 := by
  cases e with
  | lf => exact endCount_cons '\n' rest
  | crlf =>
      have hreturn : closesLine ('\r' :: '\n' :: rest) = false := rfl
      change endCount ('\r' :: '\n' :: rest) = _
      rw [endCount_cons, hreturn, if_neg Bool.false_ne_true, Nat.add_zero]
      exact endCount_cons '\n' rest
  | cr =>
      have hreturn : closesLine ('\r' :: rest) = true := bne_iff_ne.mpr (hfeed rfl)
      change endCount ('\r' :: rest) = _
      rw [endCount_cons, hreturn, if_pos rfl]

/-- There are as many line ends as there are ended lines. -/
theorem FallsInto.endCount_eq (h : FallsInto text ended left) : endCount text = ended.length := by
  induction ended generalizing text with
  | nil =>
      rcases fallsInto_nil_iff.mp h with ⟨rfl, hplain⟩
      have hcount := endCount_append hplain []
      rw [List.append_nil] at hcount
      exact hcount
  | cons first ended ih =>
      rcases fallsInto_cons_iff.mp h with ⟨rest, rfl, hline, hfeed, hrest⟩
      rw [endCount_append hline, endCount_chars hfeed, ih hrest, List.length_cons]

/-- A line starts behind a text if nothing is left there of a line that no line end ends. -/
theorem FallsInto.ended_iff (h : FallsInto text ended left) : Ended text ↔ left = [] := by
  constructor
  · intro hended
    by_contra hleft
    -- The last character of what is left is the last one of the text, and it ends no line.
    have hlast : text.getLast? = left.getLast? := by
      rw [h.whole, List.getLast?_append_of_ne_nil _ hleft]
    rcases hended with hnil | hreturn | hfeed
    · exact hleft (List.append_eq_nil_iff.mp (h.whole.symm.trans hnil)).2
    · exact h.plainLeft.noReturn (List.mem_of_getLast? (hlast.symm.trans hreturn))
    · exact h.plainLeft.noFeed (List.mem_of_getLast? (hlast.symm.trans hfeed))
  · rintro rfl
    have hwhole := h.whole
    rw [List.append_nil] at hwhole
    rcases List.eq_nil_or_concat ended with rfl | ⟨front, ⟨line, e⟩, rfl⟩
    · exact Or.inl hwhole
    · rw [written, List.concat_eq_append, List.flatMap_append, List.flatMap_singleton,
        ← List.append_assoc] at hwhole
      refine Or.inr ?_
      rw [hwhole, List.getLast?_append_of_ne_nil _ e.chars_ne_nil]
      cases e with
      | lf => exact Or.inr rfl
      | crlf => exact Or.inr rfl
      | cr => exact Or.inl rfl

namespace LineEnd

/-- Such characters stay what they are when line ends are converted. -/
theorem convert_append (e : LineEnd) (h : Plain line) (rest : List Char) :
    e.convert (line ++ rest) = line ++ e.convert rest := by
  induction line with
  | nil => rfl
  | cons c line ih =>
      rcases plain_cons_iff.mp h with ⟨hreturn, hfeed, hline⟩
      rw [List.cons_append, convert, ih hline, List.cons_append]
      · intro _ hsame
        exact absurd hsame hreturn
      · intro hsame
        exact absurd hsame hreturn
      · intro hsame
        exact absurd hsame hfeed

/-- A line end becomes the other one, if it is not the first half of a pair. -/
theorem convert_chars (e : LineEnd) {d : LineEnd} (hfeed : d = cr → rest.head? ≠ some '\n') :
    e.convert (d.chars ++ rest) = e.chars ++ e.convert rest := by
  cases d with
  | lf => exact convert.eq_4 e rest
  | crlf => exact convert.eq_2 e rest
  | cr =>
      refine convert.eq_3 e rest ?_
      rintro more rfl
      exact hfeed rfl rfl

/-- With carriage returns for all line ends there is no line feed. -/
theorem feed_not_mem_convert (text : List Char) : '\n' ∉ cr.convert text := by
  have hchars : '\n' ∉ cr.chars := by decide
  rcases exists_fallsInto text with ⟨ended, left, h⟩
  -- The induction is on the lines. What is between them is converted, and what is in them has no
  -- feed.
  induction ended generalizing text with
  | nil =>
      rcases fallsInto_nil_iff.mp h with ⟨rfl, hplain⟩
      have hsame := cr.convert_append hplain []
      rw [List.append_nil, convert, List.append_nil] at hsame
      rw [hsame]
      exact hplain.noFeed
  | cons first ended ih =>
      rcases fallsInto_cons_iff.mp h with ⟨rest, rfl, hline, hfeed, hrest⟩
      rw [cr.convert_append hline, cr.convert_chars hfeed, List.mem_append, List.mem_append,
        not_or, not_or]
      exact ⟨hline.noFeed, hchars, ih rest hrest⟩

end LineEnd

/-- Converting a text changes its line ends and nothing else. -/
theorem FallsInto.convert (h : FallsInto text ended left) (e : LineEnd) :
    FallsInto (e.convert text) (ended.map fun line => (line.1, e)) left := by
  induction ended generalizing text with
  | nil =>
      rcases fallsInto_nil_iff.mp h with ⟨rfl, hplain⟩
      have hsame := e.convert_append hplain []
      rw [List.append_nil, LineEnd.convert, List.append_nil] at hsame
      exact fallsInto_nil_iff.mpr ⟨hsame, hplain⟩
  | cons first ended ih =>
      rcases fallsInto_cons_iff.mp h with ⟨rest, rfl, hline, hfeed, hrest⟩
      -- A return at the end of a line would swallow a feed behind it, but there are none left.
      refine fallsInto_cons_iff.mpr ⟨e.convert rest, ?_, hline, ?_, ih hrest⟩
      · rw [e.convert_append hline, e.convert_chars hfeed]
      · rintro rfl hhead
        exact LineEnd.feed_not_mem_convert rest (List.mem_of_mem_head? hhead)

/-- The lines of a text are brought one at a time and then no more, and none of them has a
    line end in it. There is one way in which the text is lines with a line end behind each
    and something left, a carriage return with a line feed behind it being one line end, and
    its lines are these and what is left, unless that is empty. So there are as many lines as
    line ends, and one more if the text goes on behind the last line end. Line ends of
    another kind make no difference. -/
theorem lines_lose_nothing (text : List Char) :
    Pulled text (lines text) ∧ (∀ line ∈ lines text, Plain line) ∧
    (∃ ended left,
      (∀ others rest, FallsInto text others rest ↔ others = ended ∧ rest = left) ∧
      lines text = ended.map Prod.fst ++ (if left = [] then [] else [left]) ∧
      endCount text = ended.length) ∧
    (Ended text → (lines text).length = endCount text) ∧
    (¬ Ended text → (lines text).length = endCount text + 1) ∧
    ∀ e : LineEnd, lines (e.convert text) = lines text := by
  rcases exists_fallsInto text with ⟨ended, left, h⟩
  -- There is one line for each line end, and one more for what is left behind the last.
  have hlength : (lines text).length = ended.length + if left = [] then 0 else 1 := by
    rw [h.lines_eq, seen, List.length_append, List.length_map]
    split <;> rfl
  rw [h.endCount_eq, h.ended_iff]
  refine ⟨?_, fun line hline => plain_of_mem_lines hline, ⟨ended, left, ?_, h.lines_eq, rfl⟩,
    ?_, ?_, ?_⟩
  · rw [h.lines_eq]
    exact h.pulled
  · intro others rest
    constructor
    · exact h.unique
    · rintro ⟨rfl, rfl⟩
      exact h
  · intro hleft
    rw [hlength, if_pos hleft, Nat.add_zero]
  · intro hleft
    rw [hlength, if_neg hleft]
  · intro e
    rw [(h.convert e).lines_eq, h.lines_eq, seen, seen, List.map_map]
    rfl

/-- A text with all three line ends, blank lines between them, and a line at the end that
    nothing ends. -/
theorem lines_lose_nothing_mixed :
    let text := "a\r\n\r\rb\n\nc".toList
    lines text = ["a", "", "", "b", "", "c"].map String.toList ∧ Plain ['b'] ∧
    endCount text = 5 ∧ ¬ Ended text ∧ (lines text).length = 5 + 1 ∧
    (∃ ended left, FallsInto text ended left ∧ ended.length = 5) ∧
    lines (LineEnd.lf.convert text) = lines text := by
  intro text
  have hlines : lines text = ["a", "", "", "b", "", "c"].map String.toList := by decide +kernel
  have hcount : endCount text = 5 := by decide +kernel
  have hopen : ¬ Ended text := by
    rintro (hnil | hreturn | hfeed)
    · exact absurd hnil (by decide +kernel)
    · exact absurd hreturn (by decide +kernel)
    · exact absurd hfeed (by decide +kernel)
  rcases lines_lose_nothing text with
    ⟨-, hplain, ⟨ended, left, hcut, -, hends⟩, -, hmore, hconvert⟩
  refine ⟨hlines, hplain ['b'] (by rw [hlines]; decide), hcount, hopen, ?_, ?_, hconvert .lf⟩
  · rw [hmore hopen, hcount]
  · exact ⟨ended, left, (hcut ended left).mpr ⟨rfl, rfl⟩, hends.symm.trans hcount⟩

end Manifest

end NestedZip
