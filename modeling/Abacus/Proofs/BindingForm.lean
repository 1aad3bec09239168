import Mathlib.Data.List.DropRight
import Abacus.Command.Binding

set_option autoImplicit false

/-!
# The form of bindings

A binding is read by taking it apart: at the first equals sign, then at the blanks around
both parts, then at the sign of the value.  Each of these readers undoes one way of
putting a text together, and together they read the texts of one form, `Binding.HasForm`,
and no others.

Main statements:

* `splitAtEquals?_eq_some_iff`, `Text.trim_eq_iff`, `Text.readSigned?_eq_some_iff`: what
  the readers undo.
* `Binding.parse_of_form`: every text of the form is read, no other one is, and what is
  written reads back.
-/

namespace Abacus

namespace Text

/-! ## Blanks around a text -/

/-- A text that neither begins nor ends with a blank. -/
def Unpadded (text : List Char) : Prop :=
  (∀ c ∈ text.head?, isBlank c = false) ∧ ∀ c ∈ text.getLast?, isBlank c = false

/-- A text is a core with nothing but blanks around it. -/
structure Trimmed (text core : List Char) : Prop where
  blanks : ∃ before after, text = before ++ core ++ after ∧
    (∀ c ∈ before, isBlank c = true) ∧ ∀ c ∈ after, isBlank c = true
  unpadded : Unpadded core

variable {text core : List Char}

theorem dropWhile_eq_self_of_head? {p : Char → Bool} (h : ∀ c ∈ text.head?, p c = false) :
    text.dropWhile p = text := by
  cases text with
  | nil => rfl
  | cons c cs => exact List.dropWhile_cons_of_neg (Bool.not_eq_true _ ▸ h c rfl)

/-- Trimming takes just the blanks away that stand around a text. -/
theorem trim_eq_iff : trim text = core ↔ Trimmed text core := by
  constructor
  · rintro rfl
    have hfront : text.takeWhile isBlank ++ text.dropWhile isBlank = text :=
      List.takeWhile_append_dropWhile
    have hback :
        trim text ++ (text.dropWhile isBlank).rtakeWhile isBlank =
          text.dropWhile isBlank :=
      List.rdropWhile_append_rtakeWhile
    refine ⟨⟨text.takeWhile isBlank, (text.dropWhile isBlank).rtakeWhile isBlank, ?_,
      fun c hc => List.mem_takeWhile_imp hc, fun c hc => List.mem_rtakeWhile_imp hc⟩,
      fun c hc => ?_, fun c hc => ?_⟩
    · rw [List.append_assoc, hback, hfront]
    · have hhead := List.head?_dropWhile_not isBlank text
      rw [← hback, List.head?_append, Option.mem_def.mp hc] at hhead
      exact hhead
    · rw [trim, List.getLast?_reverse] at hc
      have hlast := List.head?_dropWhile_not isBlank (text.dropWhile isBlank).reverse
      rw [Option.mem_def.mp hc] at hlast
      exact hlast
  · rintro ⟨⟨before, after, rfl, hbefore, hafter⟩, hhead, hlast⟩
    rw [trim, List.append_assoc, List.dropWhile_append_of_pos hbefore]
    cases core with
    | nil =>
      rw [List.nil_append, List.dropWhile_eq_nil_iff.mpr hafter]
      rfl
    | cons c cs =>
      have hkept : (c :: cs ++ after).dropWhile isBlank = c :: cs ++ after :=
        dropWhile_eq_self_of_head? hhead
      rw [hkept, List.reverse_append,
        List.dropWhile_append_of_pos fun d hd => hafter d (List.mem_reverse.mp hd),
        dropWhile_eq_self_of_head? (by rwa [List.head?_reverse]), List.reverse_reverse]

/-! ## Signed numerals -/

/-- Decimal digits, at least one, behind at most one sign, and the integer for which they
stand. -/
inductive IsSigned : List Char → Int → Prop
  | plain {digits : List Char} (hne : digits ≠ [])
    (hdigits : ∀ c ∈ digits, c.isDigit = true) :
    IsSigned digits (digitsValue digits)
  | plus {digits : List Char} (hne : digits ≠ [])
    (hdigits : ∀ c ∈ digits, c.isDigit = true) :
    IsSigned ('+' :: digits) (digitsValue digits)
  | minus {digits : List Char} (hne : digits ≠ [])
    (hdigits : ∀ c ∈ digits, c.isDigit = true) :
    IsSigned ('-' :: digits) (-digitsValue digits)

variable {numeral : List Char} {v : Int64}

theorem readDigits?_eq_some_iff {n : Nat} :
    readDigits? numeral = some n ↔
      numeral ≠ [] ∧ (∀ c ∈ numeral, c.isDigit = true) ∧ digitsValue numeral = n := by
  simp only [readDigits?, List.all_eq_true]
  split
  · rename_i h
    rw [Option.some_inj]
    exact ⟨fun hn => ⟨h.1, h.2, hn⟩, fun hn => hn.2.2⟩
  · rename_i h
    constructor
    · intro hn
      cases hn
    · rintro ⟨hne, hdigits, -⟩
      exact absurd ⟨hne, hdigits⟩ h

theorem int64?_eq_some_iff {n : Int} : int64? n = some v ↔ v.toInt = n := by
  constructor
  · intro h
    rw [int64?] at h
    split at h
    · rename_i hrange
      obtain rfl := Option.some.inj h
      exact Int64.toInt_ofInt_of_le hrange.1 (Int.lt_add_one_of_le hrange.2)
    · cases h
  · rintro rfl
    exact int64?_toInt v

theorem readSigned?_of_isDigit (hne : numeral ≠ [])
    (hdigits : ∀ c ∈ numeral, c.isDigit = true) :
    readSigned? numeral = int64? (digitsValue numeral) := by
  have hread : readDigits? numeral = some (digitsValue numeral) :=
    readDigits?_eq_some_iff.mpr ⟨hne, hdigits, rfl⟩
  unfold readSigned?
  split
  · exact absurd (hdigits '-' List.mem_cons_self) (by decide)
  · exact absurd (hdigits '+' List.mem_cons_self) (by decide)
  · rw [hread, Option.bind_some]

/-- Signed numerals are read as the integers for which they stand, as far as these fit in
64 bits. -/
theorem readSigned?_eq_some_iff :
    readSigned? numeral = some v ↔ IsSigned numeral v.toInt := by
  constructor
  · intro h
    unfold readSigned? at h
    split at h
    all_goals
      obtain ⟨n, hn, hv⟩ := Option.bind_eq_some_iff.mp h
      obtain ⟨hne, hdigits, rfl⟩ := readDigits?_eq_some_iff.mp hn
      rw [int64?_eq_some_iff.mp hv]
    case h_1 => exact .minus hne hdigits
    case h_2 => exact .plus hne hdigits
    case h_3 => exact .plain hne hdigits
  · generalize hn : v.toInt = n
    intro h
    have hfits := int64?_eq_some_iff.mpr hn
    cases h with
    | plain hne hdigits => rw [readSigned?_of_isDigit hne hdigits, hfits]
    | plus hne hdigits | minus hne hdigits =>
      rw [readSigned?, readDigits?_eq_some_iff.mpr ⟨hne, hdigits, rfl⟩,
        Option.bind_some, hfits]

theorem isBlank_of_isDigit {c : Char} (h : c.isDigit = true) : isBlank c = false := by
  have hcode : 48 ≤ c.toNat ∧ c.toNat ≤ 57 := by
    simp only [Char.isDigit, Bool.and_eq_true, decide_eq_true_eq] at h
    exact h
  simp only [isBlank, inRanges, blankRanges, List.any_cons, List.any_nil,
    Bool.or_eq_false_iff, Bool.and_eq_false_iff, decide_eq_false_iff_not, and_true]
  omega

theorem isBlank_of_mem_signedDigits {c : Char} (h : c ∈ signedDigits v) :
    isBlank c = false := by
  rw [signedDigits] at h
  split at h
  · rcases List.mem_cons.mp h with rfl | h
    · rfl
    · exact isBlank_of_isDigit (isDigit_of_mem_digits h)
  · exact isBlank_of_isDigit (isDigit_of_mem_digits h)

end Text

open Text

/-! ## Bindings -/

/-- A text is split at its first equals sign. -/
theorem splitAtEquals?_eq_some_iff {text before after : List Char} :
    splitAtEquals? text = some (before, after) ↔ text = before ++ '=' :: after ∧
      '=' ∉ before := by
  constructor
  · intro h
    induction text generalizing before with
    | nil => cases h
    | cons c cs ih =>
      rw [splitAtEquals?] at h
      split at h
      · rename_i hc
        obtain ⟨rfl, rfl⟩ := Prod.mk.inj (Option.some.inj h)
        exact ⟨by rw [hc, List.nil_append], List.not_mem_nil⟩
      · rename_i hc
        obtain ⟨⟨before, after⟩, hparts, hcons⟩ := Option.map_eq_some_iff.mp h
        obtain ⟨rfl, rfl⟩ := Prod.mk.inj hcons
        obtain ⟨rfl, hnot⟩ := ih hparts
        exact ⟨rfl, List.not_mem_cons_of_ne_of_not_mem (Ne.symm hc) hnot⟩
  · rintro ⟨rfl, hnot⟩
    induction before with
    | nil => rfl
    | cons c before ih =>
      obtain ⟨hc, hnot⟩ := List.ne_and_not_mem_of_not_mem_cons hnot
      rw [List.cons_append, splitAtEquals?, if_neg (Ne.symm hc), ih hnot]
      rfl

namespace Binding

/-- A text binds what stands in front of its first equals sign to an integer that fits in
64 bits: what stands behind the sign is a signed numeral, with blanks around it. -/
def HasForm (raw before : List Char) (n : Int) : Prop :=
  ∃ after numeral, raw = before ++ '=' :: after ∧ '=' ∉ before ∧ Trimmed after numeral ∧
    IsSigned numeral n ∧ Int64.minValue.toInt ≤ n ∧ n ≤ Int64.maxValue.toInt

variable {raw : String} {before : List Char} {n : Int} {b : Binding}

/-- What stands in front of the first equals sign and the integer behind it make a
binding. -/
theorem parse_eq_ok (h : HasForm raw.toList before n) :
    ∃ v : Int64, v.toInt = n ∧ parse raw = .ok ⟨String.ofList (trim before), v⟩ := by
  obtain ⟨after, numeral, hraw, hnot, htrimmed, hsigned, hmin, hmax⟩ := h
  have hv : (Int64.ofInt n).toInt = n :=
    Int64.toInt_ofInt_of_le hmin (Int.lt_add_one_of_le hmax)
  have hread : readSigned? (trim after) = some (Int64.ofInt n) := by
    rw [trim_eq_iff.mpr htrimmed, readSigned?_eq_some_iff, hv]
    exact hsigned
  refine ⟨Int64.ofInt n, hv, ?_⟩
  simp only [parse, splitAtEquals?_eq_some_iff.mpr ⟨hraw, hnot⟩, hread,
    Option.bind_eq_bind, Option.bind_some]
  rfl

/-- What is not read is given back in the error. -/
theorem parse_eq_ok_or (raw : String) :
    (∃ b before, parse raw = .ok b ∧ HasForm raw.toList before b.value.toInt) ∨
      parse raw = .error (.invalidBinding raw) := by
  rw [parse]
  split
  · rename_i b hb
    obtain ⟨⟨before, after⟩, hsplit, hb⟩ := Option.bind_eq_some_iff.mp hb
    obtain ⟨v, hread, hb⟩ := Option.bind_eq_some_iff.mp hb
    obtain rfl := Option.some.inj hb
    obtain ⟨hraw, hnot⟩ := splitAtEquals?_eq_some_iff.mp hsplit
    exact Or.inl ⟨_, before, rfl, after, trim after, hraw, hnot, trim_eq_iff.mp rfl,
      readSigned?_eq_some_iff.mp hread, Int64.minValue_le_toInt v, Int64.toInt_le v⟩
  · exact Or.inr rfl

/-- A name without an equals sign and without blanks around it, and an integer in
decimal. -/
theorem hasForm_decimal {name : String} (hname : '=' ∉ name.toList) (v : Int64) :
    HasForm (name ++ "=" ++ signedDecimal v).toList name.toList v.toInt := by
  have hunpadded : Unpadded (signedDigits v) :=
    ⟨fun c hc => isBlank_of_mem_signedDigits (List.mem_of_head? hc),
      fun c hc => isBlank_of_mem_signedDigits (List.mem_of_getLast? hc)⟩
  refine ⟨signedDigits v, signedDigits v, ?_, hname,
    ⟨⟨[], [], by simp, by simp, by simp⟩, hunpadded⟩,
    readSigned?_eq_some_iff.mp (readSigned?_signedDigits v), Int64.minValue_le_toInt v,
    Int64.toInt_le v⟩
  simp only [String.toList_append, signedDecimal, String.toList_ofList, List.append_assoc]
  rfl

/-- A text of the form is read as the binding that it stands for, any other text is given
back in an error, and what is written as a name and an integer reads back. -/
theorem parse_of_form :
    (∀ (raw : String) (before : List Char) (n : Int), HasForm raw.toList before n →
      ∃ b, parse raw = .ok b ∧ Trimmed before b.name.toList ∧ b.value.toInt = n) ∧
    (∀ raw : String, (¬ ∃ before n, HasForm raw.toList before n) →
      parse raw = .error (.invalidBinding raw)) ∧
    ∀ (name : String) (v : Int64), '=' ∉ name.toList → Unpadded name.toList →
      parse (name ++ "=" ++ signedDecimal v) = .ok ⟨name, v⟩ := by
  refine ⟨fun raw before n h => ?_, fun raw h => ?_, fun name v hname hunpadded => ?_⟩
  · obtain ⟨v, hv, hparse⟩ := parse_eq_ok h
    refine ⟨_, hparse, ?_, hv⟩
    rw [String.toList_ofList]
    exact trim_eq_iff.mp rfl
  · refine (parse_eq_ok_or raw).resolve_left ?_
    rintro ⟨b, before, -, hform⟩
    exact h ⟨before, _, hform⟩
  · obtain ⟨v', hv, hparse⟩ := parse_eq_ok (hasForm_decimal hname v)
    have htrim : trim name.toList = name.toList :=
      trim_eq_iff.mpr ⟨⟨[], [], by simp, by simp, by simp⟩, hunpadded⟩
    rw [hparse, htrim, String.ofList_toList, Int64.toInt_inj.mp hv]

/-- The least integer behind a blank that is not ASCII, a second equals sign, and a name
with a blank in it. -/
theorem parse_of_form_least :
    (HasForm "x\u00a0=\u2003-9223372036854775808".toList "x\u00a0".toList
        (-9223372036854775808) ∧
      ∃ b, parse "x\u00a0=\u2003-9223372036854775808" = .ok b ∧
        Trimmed "x\u00a0".toList b.name.toList ∧ b.value.toInt = -9223372036854775808) ∧
    ((¬ ∃ before n, HasForm "x==1".toList before n) ∧
      parse "x==1" = .error (.invalidBinding "x==1")) ∧
    '=' ∉ "a b".toList ∧ Unpadded "a b".toList ∧
      parse ("a b" ++ "=" ++ signedDecimal Int64.minValue) =
        .ok ⟨"a b", Int64.minValue⟩ := by
  have hform : HasForm "x\u00a0=\u2003-9223372036854775808".toList "x\u00a0".toList
      (-9223372036854775808) :=
    ⟨"\u2003-9223372036854775808".toList,
      "-9223372036854775808".toList, by decide, by decide, trim_eq_iff.mp (by decide),
      .minus (by decide) (List.all_eq_true.mp (by decide)), by decide,
      by decide⟩
  have hother : ¬ ∃ before n, HasForm "x==1".toList before n := by
    rintro ⟨before, n, after, numeral, hraw, hnot, htrimmed, hsigned, -⟩
    have hsplit : some (before, after) = some (['x'], ['=', '1']) :=
      (splitAtEquals?_eq_some_iff.mpr ⟨hraw, hnot⟩).symm
    obtain ⟨-, rfl⟩ := Prod.mk.inj (Option.some.inj hsplit)
    have hnumeral : ['=', '1'] = numeral := trim_eq_iff.mpr htrimmed
    rw [← hnumeral] at hsigned
    cases hsigned with
    | plain hne hdigits => exact absurd (hdigits '=' List.mem_cons_self) (by decide)
  have hname : '=' ∉ "a b".toList := by decide
  have hunpadded : Unpadded "a b".toList := by
    constructor
    · intro c hc
      obtain rfl : 'a' = c := Option.some.inj hc
      rfl
    · intro c hc
      obtain rfl : 'b' = c := Option.some.inj hc
      rfl
  exact ⟨⟨hform, parse_of_form.1 _ _ _ hform⟩, ⟨hother, parse_of_form.2.1 _ hother⟩,
    hname, hunpadded, parse_of_form.2.2 _ _ hname hunpadded⟩

end Binding

end Abacus
