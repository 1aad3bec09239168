import Abacus.Position

set_option autoImplicit false

/-!
# Lines of a text

Lines are found by their line feeds, positions by counting line feeds and characters, and
both go with byte offsets.  This module ties the three together: `Text.numbered` lists the
lines of a text with their numbers and with the offsets at which they begin, and every
offset falls on one of them.

Main statements:

* `Text.line_induction`: a text is a line without line feed, or such a line with a line
  feed and more text behind it.
* `Text.exists_lastLine`: a text is cut in front of its last line.
* `Text.exists_list_append`: the lines in front of a cut between lines, and those behind
  it.
* `position?_eq`: the position of an offset, by the line in which it stands.
-/

namespace Abacus

namespace Text

/-! ## Cuts -/

theorem before?_append (a b : List Char) : before? (a ++ b) (byteLength a) = some a := by
  rw [before?, splitAt?_byteLength]
  rfl

/-- Of two cuts of a text, the earlier one cuts the first part of the later one. -/
theorem exists_append_of_le {a b u v : List Char} (h : a ++ b = u ++ v)
    (hle : byteLength u ≤ byteLength a) : ∃ c, a = u ++ c ∧ v = c ++ b := by
  rcases List.append_eq_append_iff.mp h with ⟨c, rfl, rfl⟩ | ⟨c, rfl, rfl⟩
  · rw [byteLength_append] at hle
    cases c with
    | nil => exact ⟨[], by simp, by simp⟩
    | cons x c =>
      have hpos := byteLength_pos (List.cons_ne_nil x c)
      omega
  · exact ⟨c, rfl, rfl⟩

/-- Of two first parts of a text, the one with more bytes is the one with more
characters. -/
theorem byteLength_le_iff {a b u v : List Char} (h : a ++ b = u ++ v) :
    byteLength u ≤ byteLength a ↔ u.length ≤ a.length := by
  constructor
  · intro hle
    obtain ⟨c, rfl, -⟩ := exists_append_of_le h hle
    rw [List.length_append]
    exact Nat.le_add_right _ _
  · intro hle
    rcases List.append_eq_append_iff.mp h with ⟨c, rfl, -⟩ | ⟨c, rfl, -⟩
    · rw [List.length_append] at hle
      obtain rfl := List.eq_nil_of_length_eq_zero (show c.length = 0 by omega)
      exact Nat.le_of_eq (congrArg byteLength (List.append_nil a))
    · rw [byteLength_append]
      exact Nat.le_add_right _ _

theorem eq_of_byteLength_eq {a b u v : List Char} (h : a ++ b = u ++ v)
    (hlength : byteLength a = byteLength u) : a = u ∧ b = v := by
  have hcut := splitAt?_byteLength a b
  rw [h, hlength, splitAt?_byteLength] at hcut
  exact (Prod.mk.inj (Option.some.inj hcut)).imp Eq.symm Eq.symm

/-- A boundary of a text, moved into a part of the text, is a boundary of the part. -/
theorem IsBoundary.clip {a b c : List Char} {offset : Nat}
    (h : IsBoundary (a ++ (b ++ c)) offset) :
    IsBoundary b (min (offset - byteLength a) (byteLength b)) := by
  obtain ⟨u, v, htext, rfl⟩ := isBoundary_iff.mp h
  rcases Nat.le_total (byteLength u) (byteLength a) with hbefore | hbehind
  · rw [Nat.sub_eq_zero_of_le hbefore, Nat.zero_min]
    exact isBoundary_iff.mpr ⟨[], b, rfl, rfl⟩
  · obtain ⟨w, rfl, hrest⟩ := exists_append_of_le htext.symm hbehind
    rw [byteLength_append, Nat.add_sub_cancel_left]
    rcases Nat.le_total (byteLength w) (byteLength b) with hle | hle
    · obtain ⟨d, rfl, -⟩ := exists_append_of_le hrest hle
      rw [Nat.min_eq_left hle]
      exact isBoundary_iff.mpr ⟨w, d, rfl, rfl⟩
    · rw [Nat.min_eq_right hle]
      exact isBoundary_byteLength b

/-- A boundary behind the place where a character begins is not in front of the end of the
character. -/
theorem IsBoundary.next_le {before after : List Char} {c : Char} {offset : Nat}
    (h : IsBoundary (before ++ c :: after) offset) (hlt : byteLength before < offset) :
    byteLength (before ++ [c]) ≤ offset := by
  obtain ⟨u, v, hcut, rfl⟩ := isBoundary_iff.mp h
  obtain ⟨w, rfl, hw⟩ := exists_append_of_le hcut.symm (Nat.le_of_lt hlt)
  cases w with
  | nil =>
    rw [List.append_nil] at hlt
    exact absurd hlt (Nat.lt_irrefl _)
  | cons d w =>
    obtain ⟨rfl, -⟩ := List.cons.inj hw
    rw [byteLength_append, byteLength_append, byteLength_cons, byteLength_cons,
      byteLength_nil]
    omega

/-! ## Single lines -/

theorem lines_of_notMem {line : List Char} (h : '\n' ∉ line) : lines line = [line] := by
  induction line with
  | nil => rfl
  | cons c cs ih =>
    obtain ⟨hc, hcs⟩ := List.ne_and_not_mem_of_not_mem_cons h
    rw [lines, if_neg (Ne.symm hc), ih hcs]

theorem lines_append_lineFeed {line : List Char} (h : '\n' ∉ line) (rest : List Char) :
    lines (line ++ '\n' :: rest) = line :: lines rest := by
  induction line with
  | nil => simp [lines]
  | cons c cs ih =>
    obtain ⟨hc, hcs⟩ := List.ne_and_not_mem_of_not_mem_cons h
    rw [List.cons_append, lines, if_neg (Ne.symm hc), ih hcs]

/-- A text is one line without line feed, or such a line with a line feed and more text
behind it. -/
theorem line_induction {motive : List Char → Prop}
    (last : ∀ line, '\n' ∉ line → motive line)
    (more : ∀ line rest, '\n' ∉ line → motive rest → motive (line ++ '\n' :: rest))
    (text : List Char) : motive text := by
  by_cases h : '\n' ∈ text
  · obtain ⟨line, rest, rfl, hline⟩ := List.eq_append_cons_of_mem h
    exact more line rest hline (line_induction last more rest)
  · exact last text h
termination_by text.length

/-! ## Whole lines -/

/-- A text of whole lines, each with its line feed. -/
inductive IsWhole : List Char → Prop
  | nil : IsWhole []
  | line {line rest : List Char} (hline : '\n' ∉ line) (hrest : IsWhole rest) :
    IsWhole (line ++ '\n' :: rest)

/-- A text of whole lines is empty or ends with a line feed. -/
theorem IsWhole.eq_nil_or {text : List Char} (h : IsWhole text) :
    text = [] ∨ ∃ init, text = init ++ ['\n'] := by
  induction h with
  | nil => exact Or.inl rfl
  | @line line rest _ _ ih =>
    rcases ih with rfl | ⟨init, rfl⟩
    · exact Or.inr ⟨line, rfl⟩
    · exact Or.inr ⟨line ++ '\n' :: init, by rw [List.append_assoc, List.cons_append]⟩

/-- A text is cut in front of its last line. -/
theorem exists_lastLine (text : List Char) :
    ∃ above line, text = above ++ line ∧ IsWhole above ∧ '\n' ∉ line := by
  induction text using line_induction with
  | last line hline => exact ⟨[], line, rfl, .nil, hline⟩
  | more line rest hline ih =>
    obtain ⟨above, last, rfl, habove, hlast⟩ := ih
    exact ⟨line ++ '\n' :: above, last, by rw [List.append_assoc, List.cons_append],
      .line hline habove, hlast⟩

/-- Every boundary stands in a line behind whole lines. -/
theorem IsBoundary.exists_lastLine {text : List Char} {offset : Nat}
    (h : IsBoundary text offset) :
    ∃ above line rest, text = above ++ line ++ rest ∧ IsWhole above ∧ '\n' ∉ line ∧
      offset = byteLength (above ++ line) := by
  obtain ⟨before, rest, rfl, rfl⟩ := isBoundary_iff.mp h
  obtain ⟨above, line, rfl, habove, hline⟩ := Text.exists_lastLine before
  exact ⟨above, line, rest, rfl, habove, hline, rfl⟩

theorem byteLength_reverse (text : List Char) :
    byteLength text.reverse = byteLength text := by
  induction text with
  | nil => rfl
  | cons c cs ih =>
    rw [List.reverse_cons, byteLength_append, ih, byteLength_cons, byteLength_cons,
      byteLength_nil]
    omega

/-- The test for the end of a line, on the characters of a line. -/
theorem decide_ne_lineFeed {line : List Char} (hline : '\n' ∉ line) :
    ∀ c ∈ line, decide (c ≠ '\n') = true := by
  intro c hc
  refine decide_eq_true ?_
  rintro rfl
  exact hline hc

theorem lastLineStart_append {above line : List Char} (habove : IsWhole above)
    (hline : '\n' ∉ line) : lastLineStart (above ++ line) = byteLength above := by
  have hreverse : '\n' ∉ line.reverse := fun h => hline (List.mem_reverse.mp h)
  rw [lastLineStart, List.reverse_append,
    List.dropWhile_append_of_pos (decide_ne_lineFeed hreverse)]
  rcases habove.eq_nil_or with rfl | ⟨init, rfl⟩
  · rfl
  · have hkept : (init ++ ['\n']).reverse.dropWhile (fun c => decide (c ≠ '\n')) =
        (init ++ ['\n']).reverse := by
      rw [List.reverse_append]
      rfl
    rw [hkept, byteLength_reverse]

/-- There is one cut of a text in front of its last line. -/
theorem IsWhole.append_inj {above line above' line' : List Char}
    (h : above ++ line = above' ++ line') (habove : IsWhole above) (hline : '\n' ∉ line)
    (habove' : IsWhole above') (hline' : '\n' ∉ line') :
    above = above' ∧ line = line' := by
  refine eq_of_byteLength_eq h ?_
  rw [← lastLineStart_append habove hline, h, lastLineStart_append habove' hline']

/-! ## Line feeds -/

theorem count_line {line : List Char} (hline : '\n' ∉ line) (rest : List Char) :
    (line ++ '\n' :: rest).count '\n' = rest.count '\n' + 1 := by
  rw [List.count_append, List.count_eq_zero_of_not_mem hline, List.count_cons_self,
    Nat.zero_add]

theorem count_append_line {line : List Char} (above : List Char) (hline : '\n' ∉ line) :
    (above ++ line).count '\n' = above.count '\n' := by
  rw [List.count_append, List.count_eq_zero_of_not_mem hline, Nat.add_zero]

/-- The line feeds in front of an offset behind a part of the text are those of the part
and those behind it. -/
theorem lineFeedsBefore_append (a b : List Char) (offset : Nat) :
    lineFeedsBefore (byteLength a + offset) (a ++ b) =
      a.count '\n' + lineFeedsBefore offset b := by
  induction a with
  | nil => simp
  | cons c cs ih =>
    have hpos : 0 < c.utf8Size := Char.utf8Size_pos c
    obtain ⟨n, hn⟩ : ∃ n, byteLength (c :: cs) + offset = n + 1 :=
      ⟨c.utf8Size + byteLength cs - 1 + offset, by rw [byteLength_cons]; omega⟩
    have hrest : n + 1 - c.utf8Size = byteLength cs + offset := by
      rw [byteLength_cons] at hn
      omega
    rw [hn, List.cons_append, lineFeedsBefore, hrest, ih, List.count_cons]
    simp only [beq_iff_eq]
    omega

/-- There are no more line feeds in front of an offset than bytes. -/
theorem lineFeedsBefore_le (offset : Nat) (text : List Char) :
    lineFeedsBefore offset text ≤ offset := by
  induction text generalizing offset with
  | nil => cases offset <;> exact Nat.zero_le _
  | cons c cs ih =>
    cases offset with
    | zero => exact Nat.le_refl 0
    | succ offset =>
      have hpos : 0 < c.utf8Size := Char.utf8Size_pos c
      have hrest := ih (offset + 1 - c.utf8Size)
      rw [lineFeedsBefore]
      split <;> omega

theorem lineFeedsBefore_of_le {line rest : List Char} {offset : Nat} (hline : '\n' ∉ line)
    (hle : offset ≤ byteLength line) : lineFeedsBefore offset (line ++ rest) = 0 := by
  induction line generalizing offset with
  | nil =>
    obtain rfl := Nat.le_zero.mp hle
    cases rest <;> rfl
  | cons c cs ih =>
    obtain ⟨hc, hcs⟩ := List.ne_and_not_mem_of_not_mem_cons hline
    cases offset with
    | zero => rfl
    | succ offset =>
      rw [byteLength_cons] at hle
      rw [List.cons_append, lineFeedsBefore, if_neg (Ne.symm hc), ih hcs (by omega)]

/-! ## Numbered lines -/

/-- A line of a text. -/
structure Line where
  number : Nat
  /-- The offset at which the line begins. -/
  start : Nat
  /-- The line without its line feed. -/
  text : List Char

namespace Line

/-- The offset at which a line ends: of its line feed, or of the end of the text. -/
def stop (l : Line) : Nat :=
  l.start + byteLength l.text

/-- The line holds the byte at an offset.  A line feed belongs to the line that it
ends. -/
def Holds (l : Line) (offset : Nat) : Prop :=
  l.start ≤ offset ∧ offset ≤ l.stop

/-- Consecutive lines, of which the first has this number and begins at this offset. -/
def list (number start : Nat) : List (List Char) → List Line
  | [] => []
  | text :: more =>
    ⟨number, start, text⟩ :: list (number + 1) (start + byteLength text + 1) more

theorem length_list (number start : Nat) (texts : List (List Char)) :
    (list number start texts).length = texts.length := by
  induction texts generalizing number start with
  | nil => rfl
  | cons text more ih => rw [list, List.length_cons, ih, List.length_cons]

end Line

/-- The lines of a text in order, counted from one. -/
def numbered (text : List Char) : List Line :=
  Line.list 1 0 (lines text)

variable {number start offset : Nat} {l : Line}

theorem list_append_lineFeed {line : List Char} (h : '\n' ∉ line) (number start : Nat)
    (rest : List Char) :
    Line.list number start (lines (line ++ '\n' :: rest)) =
      ⟨number, start, line⟩ :: Line.list (number + 1) (start + byteLength line + 1)
        (lines rest) := by
  rw [lines_append_lineFeed h, Line.list]

/-- Every line is cut out of the text at its offset, up to a line feed or the end of the
text. -/
theorem exists_cut_of_mem {text : List Char}
    (h : l ∈ Line.list number start (lines text)) :
    ∃ before behind, text = before ++ (l.text ++ behind) ∧
      l.start = start + byteLength before ∧
      ∀ c ∈ behind.head?, c = '\n' := by
  induction text using line_induction generalizing number start with
  | last line hline =>
    rw [lines_of_notMem hline] at h
    obtain rfl := List.mem_singleton.mp h
    exact ⟨[], [], (List.append_nil line).symm, rfl, by simp⟩
  | more line rest hline ih =>
    rw [list_append_lineFeed hline] at h
    rcases List.mem_cons.mp h with rfl | h
    · exact ⟨[], '\n' :: rest, rfl, rfl, by simp⟩
    · obtain ⟨before, behind, rfl, hstart, hends⟩ := ih h
      refine ⟨line ++ '\n' :: before, behind, by rw [List.append_assoc, List.cons_append],
        ?_, hends⟩
      rw [hstart, byteLength_append, byteLength_cons]
      have hsize : Char.utf8Size '\n' = 1 := rfl
      omega

/-- As many line feeds stand in front of an offset as there are lines above the one that
holds it. -/
theorem lineFeedsBefore_of_holds {text : List Char}
    (h : l ∈ Line.list number start (lines text)) (hholds : l.Holds (start + offset)) :
    number + lineFeedsBefore offset text = l.number := by
  induction text using line_induction generalizing number start offset with
  | last line hline =>
    rw [lines_of_notMem hline] at h
    obtain rfl := List.mem_singleton.mp h
    have hle : offset ≤ byteLength line := Nat.le_of_add_le_add_left hholds.2
    have hzero : lineFeedsBefore offset (line ++ []) = 0 :=
      lineFeedsBefore_of_le hline hle
    rw [List.append_nil] at hzero
    rw [hzero, Nat.add_zero]
  | more line rest hline ih =>
    rw [list_append_lineFeed hline] at h
    rcases List.mem_cons.mp h with rfl | h
    · have hle : offset ≤ byteLength line := Nat.le_of_add_le_add_left hholds.2
      rw [lineFeedsBefore_of_le hline hle, Nat.add_zero]
    · -- The line lies behind the first line feed, so the offset does, too.
      obtain ⟨before, -, -, hstart, -⟩ := exists_cut_of_mem h
      have hlength : byteLength (line ++ ['\n']) = byteLength line + 1 :=
        byteLength_append _ _
      obtain ⟨beyond, rfl⟩ : ∃ beyond, offset = byteLength (line ++ ['\n']) + beyond :=
        ⟨offset - byteLength (line ++ ['\n']), by have := hholds.1; omega⟩
      rw [← Nat.add_assoc, hlength, ← Nat.add_assoc] at hholds
      calc
        number + lineFeedsBefore (byteLength (line ++ ['\n']) + beyond) (line ++ '\n' :: rest)
          = number + ((line ++ ['\n']).count '\n' + lineFeedsBefore beyond rest) := by
            rw [← lineFeedsBefore_append, List.append_assoc, List.singleton_append]
        _ = number + 1 + lineFeedsBefore beyond rest := by
            rw [count_line hline, List.count_nil]
            omega
        _ = l.number := ih h hholds

/-- Every line but the first one has a line feed of its own in front of it. -/
theorem number_le_byteLength {text : List Char} (h : l ∈ numbered text) :
    l.number ≤ 1 + byteLength text := by
  obtain ⟨before, behind, htext, hstart, -⟩ := exists_cut_of_mem h
  have hholds : l.Holds (0 + l.start) :=
    ⟨Nat.le_of_eq (Nat.zero_add _).symm, Nat.le_trans (Nat.le_of_eq (Nat.zero_add _))
      (Nat.le_add_right _ _)⟩
  have hnumber := lineFeedsBefore_of_holds h hholds
  have hfeeds := lineFeedsBefore_le l.start text
  have hlength := congrArg byteLength htext
  rw [byteLength_append] at hlength
  omega

/-- No line is numbered lower than the first one, and none begins in front of it. -/
theorem first_le_of_mem {texts : List (List Char)}
    (h : l ∈ Line.list number start texts) :
    number ≤ l.number ∧ start ≤ l.start := by
  induction texts generalizing number start with
  | nil => cases h
  | cons text more ih =>
    rcases List.mem_cons.mp h with rfl | h
    · exact ⟨Nat.le_refl _, Nat.le_refl _⟩
    · obtain ⟨hnumber, hstart⟩ := ih h
      exact ⟨Nat.le_of_succ_le hnumber, by omega⟩

/-- Lines are numbered in order, and each one begins behind the ends of those above it. -/
theorem pairwise_list (number start : Nat) (texts : List (List Char)) :
    (Line.list number start texts).Pairwise fun l m =>
      l.number < m.number ∧ l.stop < m.start := by
  induction texts generalizing number start with
  | nil => exact .nil
  | cons text more ih =>
    exact List.pairwise_cons.mpr ⟨fun _ hm => first_le_of_mem hm, ih _ _⟩

/-- The lines above a cut between lines, and those below it. -/
theorem exists_list_append {above : List Char} (h : IsWhole above) (number start : Nat)
    (rest : List Char) :
    ∃ ls, Line.list number start (lines (above ++ rest)) =
      ls ++ Line.list (number + above.count '\n') (start + byteLength above)
        (lines rest) := by
  induction h generalizing number start with
  | nil => exact ⟨[], rfl⟩
  | @line line more hline _ ih =>
    obtain ⟨ls, hls⟩ := ih (number + 1) (start + byteLength line + 1)
    refine ⟨⟨number, start, line⟩ :: ls, ?_⟩
    rw [List.append_assoc, List.cons_append, list_append_lineFeed hline, hls,
      List.cons_append, count_line hline, byteLength_append, byteLength_cons]
    have hsize : Char.utf8Size '\n' = 1 := rfl
    congr 3 <;> omega

end Text

open Text

/-- The position of the end of a text in front of anything: its last line counts the line
feeds, and the characters in that line count the column. -/
theorem position?_eq {above head rest : List Char} (habove : IsWhole above)
    (hhead : '\n' ∉ head) :
    position? (above ++ head ++ rest) (byteLength (above ++ head)) =
      some ⟨above.count '\n' + 1, head.length + 1⟩ := by
  have hmin : min (byteLength (above ++ head)) (byteLength (above ++ head ++ rest)) =
      byteLength (above ++ head) := by
    rw [byteLength_append (above ++ head)]
    exact Nat.min_eq_left (Nat.le_add_right _ _)
  rw [position?, hmin, before?_append, Option.bind_eq_bind, Option.bind_some,
    lastLineStart_append habove hhead, after?_append, count_append_line above hhead]
  rfl

end Abacus
