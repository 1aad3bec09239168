import Abacus.Proofs.Lines

set_option autoImplicit false

/-!
# Positions and offsets

A position is computed from an offset by counting line feeds and characters.  The way back
skips them one by one: first the lines above the line of the position, each with its line
feed, and then the characters in front of its column, none of which may be a line feed.
The two ways are inverse to each other, and positions are in the order of their offsets.

Main statements:

* `Position.offset?_eq_some_iff`: a position stands for the boundary of which it is the
  position, and for nothing else.
* `Position.before_of_lt`: of two boundaries, the later one has the later position.
* `Position.faithful`: what the positions of a text say about its offsets.
-/

namespace Abacus

namespace Text

/-- What stands behind this number of line feeds. -/
def skipLineFeeds? : Nat → List Char → Option (List Char)
  | 0, text => some text
  | _ + 1, [] => none
  | n + 1, c :: cs => skipLineFeeds? (if c = '\n' then n else n + 1) cs

/-- What stands behind this number of characters, if none of them is a line feed. -/
def skipCharacters? : Nat → List Char → Option (List Char)
  | 0, text => some text
  | _ + 1, [] => none
  | n + 1, c :: cs => if c = '\n' then none else skipCharacters? n cs

end Text

open Text

namespace Position

/-- The offset that a position in a text stands for.  There is no line zero and no column
zero, and no column behind the one in which the line ends. -/
def offset? (source : List Char) : Position → Option Nat
  | ⟨line + 1, column + 1⟩ => do
    let behindLines ← skipLineFeeds? line source
    let rest ← skipCharacters? column behindLines
    return byteLength source - byteLength rest
  | _ => none

/-- A position comes before the ones in lower lines and those to the right in the same
line. -/
def Before (p q : Position) : Prop :=
  p.line < q.line ∨ p.line = q.line ∧ p.column < q.column

instance (p q : Position) : Decidable (p.Before q) :=
  inferInstanceAs (Decidable (_ ∨ _))

/-- What the positions of a text say about its offsets. -/
structure Faithful (source : List Char) : Prop where
  /-- Every boundary has a position, from which it is found again. -/
  recovered : ∀ offset, IsBoundary source offset →
    ∃ p, position? source offset = some p ∧ p.offset? source = some offset
  /-- It is found from no other position. -/
  unique : ∀ p offset, p.offset? source = some offset → position? source offset = some p
  /-- Positions are in the order of their offsets. -/
  ordered : ∀ a b, IsBoundary source a → IsBoundary source b → a < b →
    ∃ p q, position? source a = some p ∧ position? source b = some q ∧ p.Before q
  /-- All offsets past the end have the position of the end. -/
  beyond : ∀ offset, byteLength source < offset →
    ∃ p, position? source (byteLength source) = some p ∧ position? source offset = some p

end Position

/-! ## Skipping -/

namespace Text

variable {text rest : List Char} {n : Nat}

@[simp] theorem skipLineFeeds?_zero (text : List Char) :
    skipLineFeeds? 0 text = some text := by
  cases text <;> rfl

@[simp] theorem skipCharacters?_zero (text : List Char) :
    skipCharacters? 0 text = some text := by
  cases text <;> rfl

theorem skipLineFeeds?_of_notMem {line : List Char} (hline : '\n' ∉ line) (n : Nat) :
    skipLineFeeds? (n + 1) line = none := by
  induction line with
  | nil => rfl
  | cons c cs ih =>
    obtain ⟨hc, hcs⟩ := List.ne_and_not_mem_of_not_mem_cons hline
    rw [skipLineFeeds?, if_neg (Ne.symm hc), ih hcs]

theorem skipLineFeeds?_line {line : List Char} (hline : '\n' ∉ line) (n : Nat)
    (rest : List Char) :
    skipLineFeeds? (n + 1) (line ++ '\n' :: rest) = skipLineFeeds? n rest := by
  induction line with
  | nil => rfl
  | cons c cs ih =>
    obtain ⟨hc, hcs⟩ := List.ne_and_not_mem_of_not_mem_cons hline
    rw [List.cons_append, skipLineFeeds?, if_neg (Ne.symm hc), ih hcs]

/-- What is skipped are whole lines. -/
theorem skipLineFeeds?_eq_some_iff :
    skipLineFeeds? n text = some rest ↔
      ∃ above, text = above ++ rest ∧ IsWhole above ∧ above.count '\n' = n := by
  constructor
  · intro h
    induction n generalizing text with
    | zero =>
      rw [skipLineFeeds?_zero] at h
      exact ⟨[], Option.some.inj h, .nil, rfl⟩
    | succ n ih =>
      by_cases hfeed : '\n' ∈ text
      · obtain ⟨line, below, rfl, hline⟩ := List.eq_append_cons_of_mem hfeed
        rw [skipLineFeeds?_line hline] at h
        obtain ⟨above, rfl, habove, rfl⟩ := ih h
        exact ⟨line ++ '\n' :: above, by rw [List.append_assoc, List.cons_append],
          .line hline habove, count_line hline above⟩
      · rw [skipLineFeeds?_of_notMem hfeed] at h
        cases h
  · rintro ⟨above, rfl, habove, rfl⟩
    induction habove with
    | nil => exact skipLineFeeds?_zero rest
    | line hline _ ih =>
      rw [count_line hline, List.append_assoc, List.cons_append,
        skipLineFeeds?_line hline, ih]

/-- What is skipped is the beginning of a line. -/
theorem skipCharacters?_eq_some_iff :
    skipCharacters? n text = some rest ↔
      ∃ head, text = head ++ rest ∧ '\n' ∉ head ∧ head.length = n := by
  constructor
  · intro h
    induction n generalizing text with
    | zero =>
      rw [skipCharacters?_zero] at h
      exact ⟨[], Option.some.inj h, List.not_mem_nil, rfl⟩
    | succ n ih =>
      cases text with
      | nil => cases h
      | cons c cs =>
        rw [skipCharacters?] at h
        split at h
        · cases h
        · rename_i hc
          obtain ⟨head, rfl, hhead, rfl⟩ := ih h
          exact ⟨c :: head, rfl, List.not_mem_cons_of_ne_of_not_mem (Ne.symm hc) hhead,
            rfl⟩
  · rintro ⟨head, rfl, hhead, rfl⟩
    induction head with
    | nil => exact skipCharacters?_zero rest
    | cons c cs ih =>
      obtain ⟨hc, hcs⟩ := List.ne_and_not_mem_of_not_mem_cons hhead
      rw [List.length_cons, List.cons_append, skipCharacters?,
        if_neg (Ne.symm hc), ih hcs]

end Text

/-- Offsets past the end have the position of the end. -/
theorem position?_of_le {source : List Char} {offset : Nat}
    (h : byteLength source ≤ offset) :
    position? source offset = position? source (byteLength source) := by
  rw [position?, position?, Nat.min_eq_right h, Nat.min_self]

theorem exists_position? {source : List Char} {offset : Nat}
    (h : IsBoundary source offset) :
    ∃ p, position? source offset = some p := by
  obtain ⟨above, head, rest, rfl, habove, hhead, rfl⟩ := h.exists_lastLine
  exact ⟨_, position?_eq habove hhead⟩

namespace Position

variable {source : List Char} {offset : Nat} {p q : Position}

/-! ## There and back -/

/-- The offset of a position is found by one cut: whole lines are in front of it, and the
beginning of another line. -/
theorem offset?_eq_some_iff_exists_cut :
    p.offset? source = some offset ↔
      ∃ above head rest, source = above ++ head ++ rest ∧ IsWhole above ∧ '\n' ∉ head ∧
        offset = byteLength (above ++ head) ∧
          p = ⟨above.count '\n' + 1, head.length + 1⟩ := by
  have hskipped (a b : List Char) :
      byteLength (a ++ b) - byteLength b = byteLength a := by
    rw [byteLength_append, Nat.add_sub_cancel]
  constructor
  · intro h
    unfold offset? at h
    split at h
    · obtain ⟨behindLines, hlines, hline⟩ := Option.bind_eq_some_iff.mp h
      obtain ⟨rest, hcharacters, hoffset⟩ := Option.bind_eq_some_iff.mp hline
      obtain ⟨above, rfl, habove, rfl⟩ := skipLineFeeds?_eq_some_iff.mp hlines
      obtain ⟨head, rfl, hhead, rfl⟩ := skipCharacters?_eq_some_iff.mp hcharacters
      rw [← List.append_assoc] at hoffset ⊢
      have hoffset := Option.some.inj hoffset
      rw [hskipped] at hoffset
      exact ⟨above, head, rest, rfl, habove, hhead, hoffset.symm, rfl⟩
    · cases h
  · rintro ⟨above, head, rest, rfl, habove, hhead, rfl, rfl⟩
    have hlines :
        skipLineFeeds? (above.count '\n') (above ++ head ++ rest) = some (head ++ rest) :=
      skipLineFeeds?_eq_some_iff.mpr ⟨above, List.append_assoc _ _ _, habove, rfl⟩
    have hcharacters : skipCharacters? head.length (head ++ rest) = some rest :=
      skipCharacters?_eq_some_iff.mpr ⟨head, rfl, hhead, rfl⟩
    rw [offset?, hlines, Option.bind_eq_bind, Option.bind_some, hcharacters,
      Option.bind_some, hskipped]
    rfl

/-- A position stands for the boundary of which it is the position, and for nothing
else. -/
theorem offset?_eq_some_iff :
    p.offset? source = some offset ↔ IsBoundary source offset ∧
      position? source offset = some p := by
  constructor
  · intro h
    obtain ⟨above, head, rest, rfl, habove, hhead, rfl, rfl⟩ :=
      offset?_eq_some_iff_exists_cut.mp h
    exact ⟨isBoundary_iff.mpr ⟨above ++ head, rest, rfl, rfl⟩, position?_eq habove hhead⟩
  · rintro ⟨hboundary, hp⟩
    obtain ⟨above, head, rest, rfl, habove, hhead, rfl⟩ := hboundary.exists_lastLine
    obtain rfl := Option.some.inj (hp.symm.trans (position?_eq habove hhead))
    exact offset?_eq_some_iff_exists_cut.mpr ⟨above, head, rest, rfl, habove, hhead,
      rfl, rfl⟩

/-! ## Order -/

/-- Of two boundaries, the later one has the later position. -/
theorem before_of_lt {a b : Nat} (ha : p.offset? source = some a)
    (hb : q.offset? source = some b) (hlt : a < b) : p.Before q := by
  obtain ⟨above, head, rest, rfl, habove, hhead, rfl, rfl⟩ :=
    offset?_eq_some_iff_exists_cut.mp ha
  obtain ⟨above', head', rest', hcut, habove', hhead', rfl, rfl⟩ :=
    offset?_eq_some_iff_exists_cut.mp hb
  obtain ⟨between, hbetween, -⟩ := exists_append_of_le hcut.symm (Nat.le_of_lt hlt)
  -- With a line feed between the two, more lines stand above the later one; otherwise
  -- both stand in one line.
  by_cases hfeed : '\n' ∈ between
  · have hmore : 0 < between.count '\n' := List.count_pos_iff.mpr hfeed
    have hcount : above'.count '\n' = above.count '\n' + between.count '\n' := by
      rw [← count_append_line above' hhead', hbetween, List.count_append,
        count_append_line above hhead]
    refine Or.inl (Nat.succ_lt_succ ?_)
    omega
  · have hline : '\n' ∉ head ++ between :=
      fun h => (List.mem_append.mp h).elim hhead hfeed
    rw [List.append_assoc] at hbetween
    obtain ⟨rfl, rfl⟩ := IsWhole.append_inj hbetween habove' hhead' habove hline
    have hnonempty : between ≠ [] := by
      rintro rfl
      rw [List.append_nil] at hlt
      exact absurd hlt (Nat.lt_irrefl _)
    refine Or.inr ⟨rfl, Nat.succ_lt_succ ?_⟩
    rw [List.length_append]
    exact Nat.lt_add_of_pos_right (List.length_pos_iff.mpr hnonempty)

/-! ## Faithfulness -/

/-- Positions and boundaries determine each other, and they are in the same order. -/
theorem faithful (source : List Char) : Faithful source := by
  have hrecovered {offset : Nat} (h : IsBoundary source offset) :
      ∃ p, position? source offset = some p ∧ p.offset? source = some offset := by
    obtain ⟨p, hp⟩ := exists_position? h
    exact ⟨p, hp, offset?_eq_some_iff.mpr ⟨h, hp⟩⟩
  constructor
  case recovered => exact fun offset h => hrecovered h
  case unique => exact fun p offset h => (offset?_eq_some_iff.mp h).2
  case ordered =>
    intro a b ha hb hlt
    obtain ⟨p, hp, hpa⟩ := hrecovered ha
    obtain ⟨q, hq, hqb⟩ := hrecovered hb
    exact ⟨p, q, hp, hq, before_of_lt hpa hqb hlt⟩
  case beyond =>
    intro offset hlt
    obtain ⟨p, hp⟩ := exists_position? (isBoundary_byteLength source)
    exact ⟨p, hp, (position?_of_le (Nat.le_of_lt hlt)).trans hp⟩

/-- The places in front of a line feed and behind a letter of two bytes in the next
line. -/
theorem faithful_letter :
    IsBoundary "a\r\né".toList 2 ∧ IsBoundary "a\r\né".toList 5 ∧
      offset? "a\r\né".toList ⟨2, 2⟩ = some 5 ∧
        position? "a\r\né".toList 5 = some ⟨2, 2⟩ ∧
      ∃ p q, position? "a\r\né".toList 2 = some p ∧ position? "a\r\né".toList 5 = some q ∧
        p.Before q := by
  have hbefore : IsBoundary "a\r\né".toList 2 := by decide
  have hbehind : IsBoundary "a\r\né".toList 5 := by decide
  have hoffset : offset? "a\r\né".toList ⟨2, 2⟩ = some 5 := by decide
  have h := faithful "a\r\né".toList
  exact ⟨hbefore, hbehind, hoffset, h.unique _ _ hoffset,
    h.ordered 2 5 hbefore hbehind (by decide)⟩

end Position

end Abacus
