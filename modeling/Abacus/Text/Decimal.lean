set_option autoImplicit false

/-!
# Decimal numerals

Integers are written in decimal without leading zeros, a negative one behind a single `-`.
Reading a run of digits accepts any number of leading zeros.  A signed numeral, as it
stands in a binding, may also begin with a `+`; it has a value only where the value fits
in 64 bits.
-/

namespace Abacus.Text

/-- The digit of a number below ten. -/
def digit (n : Nat) : Char :=
  Char.ofNat ('0'.toNat + n)

/-- The decimal digits of a number, without leading zeros. -/
def digits (n : Nat) : List Char :=
  if n < 10 then [digit n] else digits (n / 10) ++ [digit (n % 10)]

/-- The number that a decimal digit stands for. -/
def digitValue (c : Char) : Nat :=
  c.toNat - '0'.toNat

/-- The number that a run of decimal digits stands for. -/
def digitsValue (cs : List Char) : Nat :=
  cs.foldl (fun value c => value * 10 + digitValue c) 0

/-- A number in decimal. -/
def decimal (n : Nat) : String :=
  String.ofList (digits n)

/-- A 64-bit integer in decimal, as characters. -/
def signedDigits (v : Int64) : List Char :=
  if v.toInt < 0 then '-' :: digits v.toInt.natAbs else digits v.toInt.natAbs

/-- A 64-bit integer in decimal. -/
def signedDecimal (v : Int64) : String :=
  String.ofList (signedDigits v)

/-- The 64-bit integer of a given value, where there is one. -/
def int64? (value : Int) : Option Int64 :=
  if Int64.minValue.toInt ≤ value ∧ value ≤ Int64.maxValue.toInt then
    some (Int64.ofInt value)
  else
    none

/-- The value of a numeral with one more digit at its end, computed from the value without
it.  There is none once a product or a sum on the way does not fit in 64 bits. -/
def withDigit? (value : Option Int64) (c : Char) : Option Int64 := do
  let shifted ← int64? ((← value).toInt * 10)
  int64? (shifted.toInt + digitValue c)

/-- The 64-bit value of a run of decimal digits, computed digit by digit. -/
def readInt64? (cs : List Char) : Option Int64 :=
  cs.foldl withDigit? (some 0)

/-- The value of a non-empty run of decimal digits and of nothing else. -/
def readDigits? (cs : List Char) : Option Nat :=
  if cs ≠ [] ∧ cs.all Char.isDigit then some (digitsValue cs) else none

/-- The value of a run of digits behind at most one sign, where it fits in 64 bits. -/
def readSigned? : List Char → Option Int64
  | '-' :: cs => (readDigits? cs).bind fun n => int64? (-(n : Int))
  | '+' :: cs => (readDigits? cs).bind fun n => int64? n
  | cs => (readDigits? cs).bind fun n => int64? n

/-- A number in decimal, filled up with zeros on the left to at least `width` digits. -/
def zeroPadded (width n : Nat) : String :=
  String.ofList ((digits n).leftpad width '0')

/-! ## Reading what was written -/

theorem digitValue_digit {n : Nat} (h : n < 10) : digitValue (digit n) = n := by
  have : ∀ m : Nat, m < 10 → digitValue (digit m) = m := by decide
  exact this n h

theorem isDigit_digit {n : Nat} (h : n < 10) : (digit n).isDigit = true := by
  have : ∀ m : Nat, m < 10 → (digit m).isDigit = true := by decide
  exact this n h

theorem digitsValue_append (cs : List Char) (c : Char) :
    digitsValue (cs ++ [c]) = digitsValue cs * 10 + digitValue c := by
  simp [digitsValue]

/-- Reading a numeral gives the number that it was written for. -/
theorem digitsValue_digits (n : Nat) : digitsValue (digits n) = n := by
  induction n using digits.induct with
  | case1 n h =>
    rw [digits, if_pos h]
    simpa [digitsValue] using digitValue_digit h
  | case2 n h ih =>
    rw [digits, if_neg h, digitsValue_append, ih,
      digitValue_digit (Nat.mod_lt _ (by decide))]
    omega

/-- A numeral consists of digits only. -/
theorem isDigit_of_mem_digits {n : Nat} {c : Char} (h : c ∈ digits n) :
    c.isDigit = true := by
  induction n using digits.induct with
  | case1 n hn =>
    rw [digits, if_pos hn, List.mem_singleton] at h
    exact h ▸ isDigit_digit hn
  | case2 n hn ih =>
    rw [digits, if_neg hn, List.mem_append, List.mem_singleton] at h
    rcases h with h | rfl
    · exact ih h
    · exact isDigit_digit (Nat.mod_lt _ (by decide))

theorem digits_ne_nil (n : Nat) : digits n ≠ [] := by
  rw [digits]
  split <;> simp

theorem readDigits?_digits (n : Nat) : readDigits? (digits n) = some n := by
  have hall : (digits n).all Char.isDigit = true :=
    List.all_eq_true.2 fun c hc => isDigit_of_mem_digits hc
  rw [readDigits?, if_pos ⟨digits_ne_nil n, hall⟩, digitsValue_digits]

theorem int64?_toInt (v : Int64) : int64? v.toInt = some v := by
  have hlow := Int64.minValue_le_toInt v
  have hhigh := Int64.toInt_le v
  rw [int64?, if_pos, Int64.ofInt_toInt]
  exact ⟨hlow, hhigh⟩

/-! ## Reading digit by digit -/

theorem int64?_natCast (n : Nat) :
    int64? n =
      if (n : Int) ≤ Int64.maxValue.toInt then some (Int64.ofNat n) else none := by
  have hmin : Int64.minValue.toInt = -2 ^ 63 := rfl
  rw [int64?]
  split
  · rename_i h
    rw [if_pos h.2]
    rfl
  · rename_i h
    rw [if_neg fun hmax => h ⟨by omega, hmax⟩]

theorem int64?_natCast_eq_none_iff {n : Nat} :
    int64? n = none ↔ Int64.maxValue.toInt < n := by
  rw [int64?_natCast]
  split <;> simp <;> omega

theorem toInt_of_int64? {value : Int} {v : Int64} (h : int64? value = some v) :
    v.toInt = value := by
  have hmin : Int64.minValue.toInt = -2 ^ 63 := rfl
  have hmax : Int64.maxValue.toInt = 2 ^ 63 - 1 := rfl
  rw [int64?] at h
  split at h
  · rename_i hfits
    rw [← Option.some.inj h]
    exact Int64.toInt_ofInt_of_le (by omega) (by omega)
  · cases h

/-- Where a numeral does not fit, it does not fit with one more digit, either. -/
theorem withDigit?_int64? (n : Nat) (c : Char) :
    withDigit? (int64? n) c = int64? (n * 10 + digitValue c : Nat) := by
  cases hvalue : int64? n with
  | none =>
    have hlarge := int64?_natCast_eq_none_iff.mp hvalue
    exact (int64?_natCast_eq_none_iff.mpr (by omega)).symm
  | some v =>
    have hv : v.toInt = n := toInt_of_int64? hvalue
    have hproduct : v.toInt * 10 = (n * 10 : Nat) := by omega
    cases hshifted : int64? (n * 10 : Nat) with
    | none =>
      have hlarge := int64?_natCast_eq_none_iff.mp hshifted
      rw [int64?_natCast_eq_none_iff.mpr (by omega)]
      simp only [withDigit?, Option.bind_eq_bind, Option.bind_some, hproduct, hshifted,
        Option.bind_none]
    | some w =>
      have hsum : w.toInt + digitValue c = (n * 10 + digitValue c : Nat) := by
        rw [toInt_of_int64? hshifted]
        omega
      simp only [withDigit?, Option.bind_eq_bind, Option.bind_some, hproduct,
        hshifted, hsum]

/-- Checking after every digit comes to the same as checking the value of the numeral
once. -/
theorem readInt64?_eq (cs : List Char) : readInt64? cs = int64? (digitsValue cs) := by
  have hfold (n : Nat) : cs.foldl withDigit? (int64? n) =
      int64? (cs.foldl (fun value c => value * 10 + digitValue c) n : Nat) := by
    induction cs generalizing n with
    | nil => rfl
    | cons c cs ih => rw [List.foldl_cons, withDigit?_int64?, ih, List.foldl_cons]
  exact hfold 0

/-! ## Signed numerals -/

/-- A written integer reads back. -/
theorem readSigned?_signedDigits (v : Int64) : readSigned? (signedDigits v) = some v := by
  have hplain (cs : List Char) (hne : cs ≠ []) (hall : ∀ c ∈ cs, c.isDigit = true) :
      readSigned? cs = (readDigits? cs).bind fun n => int64? n := by
    cases cs with
    | nil => exact absurd rfl hne
    | cons c cs =>
      have hc := hall c List.mem_cons_self
      unfold readSigned?
      split
      · simp_all
      · simp_all
      · rfl
  unfold signedDigits
  split
  · rename_i h
    simp only [readSigned?, readDigits?_digits, Option.bind_some]
    have : -(v.toInt.natAbs : Int) = v.toInt := by omega
    rw [this, int64?_toInt]
  · rename_i h
    rw [hplain _ (digits_ne_nil _) fun c hc => isDigit_of_mem_digits hc,
      readDigits?_digits, Option.bind_some]
    have : (v.toInt.natAbs : Int) = v.toInt := by omega
    rw [this, int64?_toInt]

end Abacus.Text
