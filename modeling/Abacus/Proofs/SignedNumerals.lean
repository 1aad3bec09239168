import Mathlib.Algebra.Ring.Int.Parity
import Abacus.Proofs.WrittenForm

set_option autoImplicit false

/-!
# Numerals with signs

A numeral may have any run of signs in front of it.  The scanner sees the digits only and
rejects what is larger than the greatest 64-bit integer; the reader applies the signs
afterwards.  So behind signs, too, what is accepted lies between the greatest integer and
its negation.  The least integer lies outside: it has to be written as a difference.

Main statements:

* `Text.exists_front_signs`: signs and digits are the lexemes of a literal with its signs.
* `Arena.parse_signedNumeral`: which signed numerals are accepted, and as what.
-/

namespace Abacus

open Parse

namespace Text

/-- The number that digits behind a run of signs stand for: every minus sign negates
it. -/
def signedValue (run digits : List Char) : Int :=
  (-1) ^ run.count '-' * digitsValue digits

/-- A run of signs with blanks between them and around them. -/
def IsSignRun (run : List Char) : Prop :=
  ∀ c ∈ run, c = '+' ∨ c = '-' ∨ isAsciiBlank c = true

variable {run digits : List Char} {signs : List Sign}

theorem signedValue_eq (h : signs.countP Sign.minus = run.count '-') :
    signedValue run digits =
      if Sign.odd signs then -(digitsValue digits : Int) else digitsValue digits := by
  rw [signedValue, ← h, Sign.odd]
  rcases Nat.even_or_odd (signs.countP Sign.minus) with heven | hodd
  · simp [heven.neg_one_pow, Nat.even_iff.mp heven]
  · simp [hodd.neg_one_pow, Nat.odd_iff.mp hodd]

/-- The value is in the symmetric part of the 64-bit range exactly if the digits alone
are. -/
theorem signedValue_fits_iff (h : signs.countP Sign.minus = run.count '-') :
    (Int64.minValue.toInt < signedValue run digits ∧
        signedValue run digits ≤ Int64.maxValue.toInt) ↔
      (digitsValue digits : Int) ≤ Int64.maxValue.toInt := by
  have hmin : Int64.minValue.toInt = -9223372036854775808 := rfl
  have hmax : Int64.maxValue.toInt = 9223372036854775807 := rfl
  rw [signedValue_eq h, hmin, hmax]
  split <;> omega

/-- Signs and digits are the lexemes of a literal with its signs. -/
theorem exists_front_signs (hrun : IsSignRun run) (hne : digits ≠ [])
    (hdigits : ∀ c ∈ digits, c.isDigit = true) (offset : Nat) :
    ∃ signs span, signs.countP Sign.minus = run.count '-' ∧
      Spelled.Front offset (run ++ digits)
        (Phrase.atom signs (.literal span (digitsValue digits))).lexemes := by
  induction run generalizing offset with
  | nil =>
    obtain ⟨span, hspan⟩ := Spelled.Front.exists_digits offset hne hdigits
    exact ⟨[], span, rfl, hspan⟩
  | cons c run ih =>
    obtain ⟨hc, hrun⟩ := List.forall_mem_cons.mp hrun
    obtain ⟨signs, span, hcount, hfront⟩ := ih hrun (offset + byteLength [c])
    rcases hc with rfl | rfl | hblank
    · obtain ⟨plus, hplus⟩ := Spelled.Front.exists_cons (Spelling.operator .add) hfront
      exact ⟨⟨false, plus⟩ :: signs, span, by simpa using hcount, hplus⟩
    · obtain ⟨minus, hminus⟩ := Spelled.Front.exists_cons (Spelling.operator .sub) hfront
      exact ⟨⟨true, minus⟩ :: signs, span, by simpa using hcount, hminus⟩
    · have hne : c ≠ '-' := by
        rintro rfl
        exact absurd hblank (by decide)
      exact ⟨signs, span, by rwa [List.count_cons_of_ne hne], hfront.cons_blank hblank⟩

end Text

/-! ## Literals behind signs -/

namespace Sign

variable {signs : List Sign} {n : Nat}

theorem toInt_neg_ofNat (h : (n : Int) ≤ Int64.maxValue.toInt) :
    (-Int64.ofNat n).toInt = -n := by
  have hmax : Int64.maxValue.toInt = 9223372036854775807 := rfl
  have hcast : -Int64.ofNat n = Int64.ofInt (-n) := (Int64.ofInt_neg n).symm
  rw [hcast, Int64.toInt_ofInt_of_le (by omega) (by omega)]

/-- A literal takes the signs in front of it. -/
theorem exists_applySigns_literal (signs : List Sign) (span : Span)
    (h : (n : Int) ≤ Int64.maxValue.toInt) :
    ∃ value wider, value.toInt = (if odd signs then -(n : Int) else n) ∧
      applySigns (run signs) (.literal span (Int64.ofNat n)) =
        .ok (.literal wider value) := by
  cases hodd : odd signs with
  | false => exact ⟨_, span, Lexeme.toInt_ofNat h, applySigns_of_even hodd _⟩
  | true =>
    have hne : Int64.ofNat n ≠ Int64.minValue := by
      intro heq
      have hnat := Lexeme.toInt_ofNat h
      rw [heq] at hnat
      have hmin : Int64.minValue.toInt = -9223372036854775808 := rfl
      omega
    obtain ⟨wider, hwider⟩ := applySigns_of_odd hodd (.literal span (Int64.ofNat n))
    simp only [Tree.literal?, if_neg hne] at hwider
    exact ⟨_, wider, toInt_neg_ofNat h, hwider⟩

end Sign

/-- Behind signs a numeral that does not fit is what the scan ends with, and the reader
gets to it. -/
theorem Parse.ofScan_signs {names : List String} {maxDepth stop : Nat} {signs : List Sign}
    {l : Lexeme} (hl : ¬ l.Fits) :
    ofScan names maxDepth (Scan.ofLexemes stop (signs.map Sign.lexeme ++ [l])) =
      .error ⟨.valueOutOfRange, l.span⟩ := by
  have hsigns : ∀ m ∈ signs.map Sign.lexeme, m.Fits := by
    rintro m hm value hvalue
    obtain ⟨s, -, rfl⟩ := List.mem_map.mp hm
    cases hvalue
  obtain ⟨state, hrun⟩ :
    ∃ state, Phrase.advance names maxDepth start (signs.map Sign.lexeme) =
      .ok state := ⟨_, Phrase.advance_signs signs none none none []⟩
  rw [Phrase.advance] at hrun
  rw [Scan.ofLexemes_of_not_fits hsigns hl, ofScan, hrun]
  rfl

namespace Arena

variable {names : List String} {run digits : List Char}

/-- Digits behind signs are accepted if their value is an integer of 64 bits and not the
least one, and then they are read as the literal of that value.  Otherwise the value is
reported as out of range. -/
theorem parse_signedNumeral (hnames : Scope.Valid names) (hrun : Text.IsSignRun run)
    (hne : digits ≠ []) (hdigits : ∀ c ∈ digits, c.isDigit = true) (maxDepth : Nat) :
    ((Int64.minValue.toInt < Text.signedValue run digits ∧
        Text.signedValue run digits ≤ Int64.maxValue.toInt) →
      ∃ value span, value.toInt = Text.signedValue run digits ∧
        Arena.parse (String.ofList (run ++ digits)) names maxDepth =
          .ok ⟨#[⟨.literal value, span⟩], names.length⟩) ∧
    (¬ (Int64.minValue.toInt < Text.signedValue run digits ∧
        Text.signedValue run digits ≤ Int64.maxValue.toInt) →
      ∃ span, Arena.parse (String.ofList (run ++ digits)) names maxDepth =
        .error ⟨.valueOutOfRange, String.ofList (run ++ digits), span⟩) := by
  obtain ⟨signs, span, hcount, hfront⟩ := Text.exists_front_signs hrun hne hdigits 0
  rw [Text.signedValue_fits_iff hcount, Text.signedValue_eq hcount]
  have hspells : (Phrase.product (.signed (.atom signs
      (.literal span (Text.digitsValue digits))))).Spells
        (String.ofList (run ++ digits)) := by
    rw [Phrase.Spells, String.toList_ofList]
    exact hfront.spelled
  constructor
  · intro hfits
    obtain ⟨value, wider, hvalue, hsigns⟩ :=
      Sign.exists_applySigns_literal signs span hfits
    exact ⟨value, wider, hvalue, parse_eq_ok_iff.mpr ⟨_, Tree.parse_of_read hnames hspells
      (List.forall_mem_singleton.mpr hfits) hsigns, rfl⟩⟩
  · intro hfits
    have hl : ¬ Lexeme.Fits ⟨.number (Text.digitsValue digits), span⟩ :=
      fun h => hfits (h _ rfl)
    obtain ⟨stop, hscan⟩ := hspells.ofText_eq
    exact ⟨span, parse_eq_error_iff.mpr (Tree.parse_eq_error_iff.mpr (Or.inr
      ⟨Scope.fault?_eq_none_iff.mpr hnames, _, hscan ▸ Parse.ofScan_signs hl, rfl⟩))⟩

/-- One more than the least integer can be written with signs. -/
theorem parse_signedNumeral_negative :
    ∃ value span, value.toInt = Text.signedValue "- -\t-".toList
      "09223372036854775807".toList ∧
      Arena.parse "- -\t-09223372036854775807" [] 0 =
        .ok ⟨#[⟨.literal value, span⟩], 0⟩ := by
  have hnames : Scope.Valid [] := by decide
  have hrun :
      Text.IsSignRun "- -\t-".toList := by simp [Text.IsSignRun, Text.isAsciiBlank]
  have hdigits : "09223372036854775807".toList.all Char.isDigit = true := by decide
  exact (parse_signedNumeral hnames hrun (by decide) (List.all_eq_true.mp hdigits) 0).1
    (by decide +kernel)

/-- The least integer itself cannot, since its digits alone do not fit. -/
theorem parse_signedNumeral_least :
    Text.IsSignRun ['-'] ∧
      Text.signedValue ['-'] "9223372036854775808".toList = Int64.minValue.toInt ∧
      Arena.parse "-9223372036854775808" [] defaultMaxDepth =
        .error ⟨.valueOutOfRange, "-9223372036854775808", ⟨1, 20⟩⟩ := by
  refine ⟨?_, by decide +kernel, by decide +kernel⟩
  simp [Text.IsSignRun]

end Arena

end Abacus
