set_option autoImplicit false

/-!
# Byte offsets into a text

Positions in a source text are offsets into its UTF-8 encoding, while the text itself is
handled as a list of characters.  This module converts between the two.  A cut at an
offset exists only where a character begins or the text ends: `splitAt?` has no result for
an offset inside a character or past the end, so whatever is cut out is a list of whole
characters.
-/

namespace Abacus.Text

/-- The number of bytes that the UTF-8 encoding of a text takes. -/
def byteLength : List Char → Nat
  | [] => 0
  | c :: cs => c.utf8Size + byteLength cs

/-- Cuts a text at a byte offset; there is no cut inside a character or past the end. -/
def splitAt? : Nat → List Char → Option (List Char × List Char)
  | 0, text => some ([], text)
  | _ + 1, [] => none
  | offset + 1, c :: cs =>
    if c.utf8Size ≤ offset + 1 then
      (splitAt? (offset + 1 - c.utf8Size) cs).map fun cut => (c :: cut.1, cut.2)
    else
      none

/-- The text before a byte offset. -/
def before? (text : List Char) (offset : Nat) : Option (List Char) :=
  (splitAt? offset text).map Prod.fst

/-- The text from a byte offset on. -/
def after? (text : List Char) (offset : Nat) : Option (List Char) :=
  (splitAt? offset text).map Prod.snd

/-- The text between two byte offsets, which have to be in order. -/
def slice? (text : List Char) (start stop : Nat) : Option (List Char) :=
  if start ≤ stop then
    (after? text start).bind (before? · (stop - start))
  else
    none

/-- The byte offsets of a text at which a character begins or the text ends. -/
def IsBoundary (text : List Char) (offset : Nat) : Prop :=
  (splitAt? offset text).isSome

instance (text : List Char) (offset : Nat) : Decidable (IsBoundary text offset) :=
  inferInstanceAs (Decidable (_ = true))

@[simp] theorem byteLength_nil : byteLength [] = 0 := rfl

@[simp] theorem byteLength_cons (c : Char) (cs : List Char) :
    byteLength (c :: cs) = c.utf8Size + byteLength cs := rfl

@[simp] theorem byteLength_append (a b : List Char) :
    byteLength (a ++ b) = byteLength a + byteLength b := by
  induction a with
  | nil => simp
  | cons c cs ih => simp [ih, Nat.add_assoc]

@[simp] theorem splitAt?_zero (text : List Char) : splitAt? 0 text = some ([], text) := by
  cases text <;> rfl

/-- Cutting after a given first part finds that part again. -/
@[simp] theorem splitAt?_byteLength (a b : List Char) :
    splitAt? (byteLength a) (a ++ b) = some (a, b) := by
  induction a with
  | nil => simp
  | cons c cs ih =>
    have hpos : 0 < c.utf8Size := Char.utf8Size_pos c
    obtain ⟨n, hn⟩ : ∃ n, c.utf8Size + byteLength cs = n + 1 :=
      ⟨c.utf8Size + byteLength cs - 1, by omega⟩
    have hrest : n + 1 - c.utf8Size = byteLength cs := by omega
    simp [hn, splitAt?, hrest, ih, show c.utf8Size ≤ n + 1 by omega]

/-- A cut loses nothing, and its first part takes as many bytes as the offset says. -/
theorem splitAt?_eq_some {offset : Nat} {text a b : List Char}
    (h : splitAt? offset text = some (a, b)) : text = a ++ b ∧ byteLength a = offset := by
  induction text generalizing offset a with
  | nil =>
    cases offset with
    | zero => simp_all
    | succ n => simp [splitAt?] at h
  | cons c cs ih =>
    cases offset with
    | zero => simp_all
    | succ n =>
      simp only [splitAt?] at h
      split at h
      · rename_i hc
        obtain ⟨⟨a', b'⟩, hcut, heq⟩ := Option.map_eq_some_iff.1 h
        obtain ⟨rfl, rfl⟩ := Prod.mk.inj heq
        obtain ⟨htext, hlen⟩ := ih hcut
        exact ⟨by simp [htext], by simp [hlen]; omega⟩
      · simp at h

theorem byteLength_of_after? {text rest : List Char} {offset : Nat}
    (h : after? text offset = some rest) :
    offset + byteLength rest = byteLength text := by
  obtain ⟨⟨a, b⟩, hcut, rfl⟩ := Option.map_eq_some_iff.1 h
  obtain ⟨rfl, rfl⟩ := splitAt?_eq_some hcut
  rw [byteLength_append]

theorem byteLength_takeWhile_le (p : Char → Bool) (text : List Char) :
    byteLength (text.takeWhile p) ≤ byteLength text := by
  have h := congrArg byteLength (List.takeWhile_append_dropWhile (p := p) (l := text))
  rw [byteLength_append] at h
  omega

theorem after?_append (a b : List Char) : after? (a ++ b) (byteLength a) = some b := by
  rw [after?, splitAt?_byteLength]
  rfl

/-- A slice is what stands between a part as long as its start and another one. -/
theorem slice?_eq_some_iff {text run : List Char} {start stop : Nat} :
    slice? text start stop = some run ↔
      ∃ a b, text = a ++ run ++ b ∧ start = byteLength a ∧
        stop = byteLength a + byteLength run := by
  constructor
  · intro h
    unfold slice? at h
    split at h
    · obtain ⟨rest, hafter, hbefore⟩ := Option.bind_eq_some_iff.1 h
      obtain ⟨⟨a, rest'⟩, hcut, hrest'⟩ := Option.map_eq_some_iff.1 hafter
      obtain ⟨⟨run', b⟩, hcut', hrun'⟩ := Option.map_eq_some_iff.1 hbefore
      obtain rfl : rest' = rest := hrest'
      obtain rfl : run' = run := hrun'
      obtain ⟨htext, hlength⟩ := splitAt?_eq_some hcut
      obtain ⟨hrest, hlength'⟩ := splitAt?_eq_some hcut'
      exact ⟨a, b, by rw [htext, hrest, List.append_assoc], hlength.symm, by omega⟩
    · cases h
  · rintro ⟨a, b, rfl, rfl, rfl⟩
    have hstop : byteLength a + byteLength run - byteLength a = byteLength run := by omega
    rw [slice?, if_pos (Nat.le_add_right _ _), List.append_assoc, after?_append,
      Option.bind_some, hstop, before?, splitAt?_byteLength]
    rfl

theorem isBoundary_iff {text : List Char} {offset : Nat} :
    IsBoundary text offset ↔ ∃ a b, text = a ++ b ∧ offset = byteLength a := by
  constructor
  · intro h
    obtain ⟨⟨a, b⟩, hcut⟩ := Option.isSome_iff_exists.1 h
    obtain ⟨htext, hlength⟩ := splitAt?_eq_some hcut
    exact ⟨a, b, htext, hlength.symm⟩
  · rintro ⟨a, b, rfl, rfl⟩
    rw [IsBoundary, splitAt?_byteLength]
    rfl

theorem IsBoundary.le {text : List Char} {offset : Nat} (h : IsBoundary text offset) :
    offset ≤ byteLength text := by
  obtain ⟨a, b, rfl, rfl⟩ := isBoundary_iff.1 h
  rw [byteLength_append]
  exact Nat.le_add_right _ _

theorem isBoundary_byteLength (text : List Char) : IsBoundary text (byteLength text) :=
  isBoundary_iff.2 ⟨text, [], (List.append_nil text).symm, rfl⟩

/-- Both ends of a slice are boundaries, and they stand in order. -/
theorem boundaries_of_slice? {text run : List Char} {start stop : Nat}
    (h : slice? text start stop = some run) :
    IsBoundary text start ∧ IsBoundary text stop ∧ start ≤ stop := by
  obtain ⟨a, b, rfl, rfl, rfl⟩ := slice?_eq_some_iff.1 h
  exact ⟨isBoundary_iff.2 ⟨a, run ++ b, List.append_assoc _ _ _, rfl⟩,
    isBoundary_iff.2 ⟨a ++ run, b, rfl, (byteLength_append a run).symm⟩,
    Nat.le_add_right _ _⟩

theorem byteLength_pos {text : List Char} (h : text ≠ []) : 0 < byteLength text := by
  cases text with
  | nil => exact absurd rfl h
  | cons c cs => exact Nat.lt_of_lt_of_le (Char.utf8Size_pos c) (Nat.le_add_right _ _)

end Abacus.Text
