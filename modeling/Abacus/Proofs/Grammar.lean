import Abacus.Proofs.Meaning
import Abacus.Proofs.Spelling

set_option autoImplicit false

/-!
# The language of expressions

A `Phrase` is a derivation in the grammar

    sum        := product (('+' | '-') product)*
    product    := signed (('*' | '/') signed)*
    signed     := ('+' | '-')* atom
    atom       := literal | identifier | '(' sum ')'

in which the repetitions lean to the left.  `Phrase.lexemes` is what it is spelled with,
and `Phrase.denote` is what it means for given values of its identifiers.  Neither knows
of trees, of folding or of the order in which tokens are taken.

Main statements:

* `Phrase.denote_eq_none_iff`: a phrase has no value exactly if one of its divisors is
  zero.
-/

namespace Abacus

/-- The levels of the grammar, from the weakest binding to the strongest. -/
inductive Level where
  | sum
  | product
  | signed
  | atom
  deriving DecidableEq, Repr

/-- A sign in front of an operand. -/
structure Sign where
  minus : Bool
  span : Span
  deriving DecidableEq, Repr

namespace Sign

/-- The operator that a sign is spelled as. -/
def operator (s : Sign) : Operator := if s.minus then .sub else .add

/-- The lexeme of a sign. -/
def lexeme (s : Sign) : Lexeme := ⟨.operator s.operator, s.span⟩

/-- The effect of a run of signs: each minus sign negates what stands behind it, wrapping
around. -/
def apply (signs : List Sign) (value : Int64) : Int64 :=
  signs.foldr (fun s v => if s.minus then -v else v) value

/-- A run of signs with an odd number of minus signs. -/
def odd (signs : List Sign) : Bool :=
  decide ((signs.countP Sign.minus) % 2 = 1)

theorem odd_cons (s : Sign) (signs : List Sign) :
    odd (s :: signs) = (s.minus != odd signs) := by
  simp only [odd, List.countP_cons]
  cases s.minus with
  | false => simp
  | true =>
    rcases Nat.mod_two_eq_zero_or_one (signs.countP Sign.minus) with h | h
    · have hsucc : (signs.countP Sign.minus + 1) % 2 = 1 := by omega
      simp [h, hsucc]
    · have hsucc : (signs.countP Sign.minus + 1) % 2 = 0 := by omega
      simp [h, hsucc]

/-- Only the parity of the minus signs matters. -/
theorem apply_eq (signs : List Sign) (value : Int64) :
    apply signs value = if odd signs then -value else value := by
  induction signs with
  | nil => rfl
  | cons s signs ih =>
    have hcons : apply (s :: signs) value = if s.minus then -apply signs value else
        apply signs value :=
      rfl
    rw [hcons, ih, odd_cons]
    cases s.minus <;> cases odd signs <;> simp

end Sign

/-- A derivation of an expression, or of a part of one on some level. -/
inductive Phrase : Level → Type
  /-- A sum of one product. -/
  | product (body : Phrase .product) : Phrase .sum
  /-- A sum that goes on with one more product. -/
  | addend (left : Phrase .sum) (op : Operator) (additive : op.isAdditive = true)
    (span : Span)
      (right : Phrase .product) : Phrase .sum
  /-- A product of one operand. -/
  | signed (body : Phrase .signed) : Phrase .product
  /-- A product that goes on with one more operand. -/
  | factor (left : Phrase .product) (op : Operator)
    (multiplicative : op.isAdditive = false)
      (span : Span) (right : Phrase .signed) : Phrase .product
  /-- An atom with the signs in front of it. -/
  | atom (signs : List Sign) (operand : Phrase .atom) : Phrase .signed
  | literal (span : Span) (value : Nat) : Phrase .atom
  | ident (span : Span) (name : String) : Phrase .atom
  /-- A sum in parentheses. -/
  | group (opening closing : Span) (body : Phrase .sum) : Phrase .atom

namespace Phrase

/-- What a phrase is spelled with. -/
def lexemes {level : Level} : Phrase level → List Lexeme
  | product body => body.lexemes
  | addend left op _ span right => left.lexemes ++ ⟨.operator op, span⟩ :: right.lexemes
  | signed body => body.lexemes
  | factor left op _ span right => left.lexemes ++ ⟨.operator op, span⟩ :: right.lexemes
  | atom signs operand => signs.map Sign.lexeme ++ operand.lexemes
  | literal span value => [⟨.number value, span⟩]
  | ident span name => [⟨.ident name, span⟩]
  | group opening closing body =>
    ⟨.openParen, opening⟩ :: (body.lexemes ++ [⟨.closeParen, closing⟩])

/-- A phrase is spelled by a source: nothing but layout stands between its lexemes and
around them. -/
def Spells (p : Phrase .sum) (source : String) : Prop :=
  ∃ stop, Spelled 0 source.toList p.lexemes stop

/-- The literals of a phrase. -/
def literals {level : Level} : Phrase level → List Nat
  | product body => body.literals
  | addend left _ _ _ right => left.literals ++ right.literals
  | signed body => body.literals
  | factor left _ _ _ right => left.literals ++ right.literals
  | atom _ operand => operand.literals
  | literal _ value => [value]
  | ident _ _ => []
  | group _ _ body => body.literals

/-- The identifiers of a phrase. -/
def identifiers {level : Level} : Phrase level → List String
  | product body => body.identifiers
  | addend left _ _ _ right => left.identifiers ++ right.identifiers
  | signed body => body.identifiers
  | factor left _ _ _ right => left.identifiers ++ right.identifiers
  | atom _ operand => operand.identifiers
  | literal _ _ => []
  | ident _ name => [name]
  | group _ _ body => body.identifiers

/-- How deep the parentheses of a phrase are nested. -/
def nesting {level : Level} : Phrase level → Nat
  | product body => body.nesting
  | addend left _ _ _ right => max left.nesting right.nesting
  | signed body => body.nesting
  | factor left _ _ _ right => max left.nesting right.nesting
  | atom _ operand => operand.nesting
  | literal _ _ => 0
  | ident _ _ => 0
  | group _ _ body => body.nesting + 1

/-- The right operands of the divisions in a phrase. -/
def divisors {level : Level} : Phrase level → List (Phrase .signed)
  | product body => body.divisors
  | addend left _ _ _ right => left.divisors ++ right.divisors
  | signed body => body.divisors
  | factor left op _ _ right =>
    left.divisors ++ right.divisors ++ if op = .div then [right] else []
  | atom _ operand => operand.divisors
  | literal _ _ => []
  | ident _ _ => []
  | group _ _ body => body.divisors

/-- The atoms of a phrase that have an odd number of minus signs in front of them. -/
def negated {level : Level} : Phrase level → List (Phrase .atom)
  | product body => body.negated
  | addend left _ _ _ right => left.negated ++ right.negated
  | signed body => body.negated
  | factor left _ _ _ right => left.negated ++ right.negated
  | atom signs operand => operand.negated ++ if Sign.odd signs then [operand] else []
  | literal _ _ => []
  | ident _ _ => []
  | group _ _ body => body.negated

/-- The value of a phrase where its identifiers have the values of `env`; none if a
divisor is zero. -/
def denote (env : String → Int64) {level : Level} : Phrase level → Option Int64
  | product body => body.denote env
  | addend left op _ _ right => op.combine? (left.denote env) (right.denote env)
  | signed body => body.denote env
  | factor left op _ _ right => op.combine? (left.denote env) (right.denote env)
  | atom signs operand => (operand.denote env).map (Sign.apply signs)
  | literal _ value => some (Int64.ofNat value)
  | ident _ name => some (env name)
  | group _ _ body => body.denote env

/-- The value of a phrase without identifiers. -/
def constant? {level : Level} (p : Phrase level) : Option Int64 :=
  if p.identifiers = [] then p.denote (fun _ => 0) else none

/-- A phrase of which all literals fit in 64 bits has lexemes that fit. -/
theorem fits_lexemes_iff {level : Level} (p : Phrase level) :
    (∀ l ∈ p.lexemes, l.Fits) ↔ ∀ n ∈ p.literals, (n : Int) ≤ Int64.maxValue.toInt := by
  have hoperator (op : Operator) (span : Span) : Lexeme.Fits ⟨.operator op, span⟩ :=
    fun n hn => by cases hn
  induction p with
  | product _ ih => exact ih
  | addend left op _ span right ihl ihr =>
    simp only [lexemes, literals, List.mem_append, List.mem_cons, or_imp, forall_and,
      forall_eq, ihl, ihr, hoperator, true_and]
  | signed _ ih => exact ih
  | factor left op _ span right ihl ihr =>
    simp only [lexemes, literals, List.mem_append, List.mem_cons, or_imp, forall_and,
      forall_eq, ihl, ihr, hoperator, true_and]
  | atom signs operand ih =>
    have hsigns : ∀ l ∈ signs.map Sign.lexeme, l.Fits := by
      intro l hl
      obtain ⟨s, -, rfl⟩ := List.mem_map.mp hl
      exact hoperator _ _
    simp only [lexemes, literals, List.mem_append, or_imp, forall_and, ih]
    exact and_iff_right hsigns
  | literal span value =>
    simp only [lexemes, literals, List.mem_singleton, forall_eq]
    constructor
    · intro h
      exact h value rfl
    · rintro h n hn
      obtain rfl := Lexeme.Kind.number.inj hn
      exact h
  | ident span name =>
    simp only [lexemes, literals, List.mem_singleton, forall_eq, List.not_mem_nil,
      false_imp_iff, implies_true, iff_true]
    intro n hn
    cases hn
  | group opening closing body ih =>
    simp only [lexemes, literals, List.mem_append, List.mem_cons, List.not_mem_nil,
      or_false, or_imp, forall_and, forall_eq, ih]
    refine ⟨fun h => h.2.1, fun h => ⟨fun n hn => ?_, h, fun n hn => ?_⟩⟩ <;> cases hn

/-! ## Meaning -/

variable {env : String → Int64}

/-- A phrase has no value exactly if the value of one of its divisors is zero. -/
theorem denote_eq_none_iff {level : Level} (p : Phrase level) :
    p.denote env = none ↔ ∃ d ∈ p.divisors, d.denote env = some 0 := by
  induction p with
  | product _ ih => exact ih
  | addend left op additive span right ihl ihr =>
    have hdiv : op ≠ .div := by
      rintro rfl
      cases additive
    rw [denote, Operator.combine?_eq_none_iff, ihl, ihr]
    simp only [divisors, List.mem_append, or_and_right, exists_or, hdiv, false_and,
      or_false]
  | signed _ ih => exact ih
  | factor left op multiplicative span right ihl ihr =>
    rw [denote, Operator.combine?_eq_none_iff, ihl, ihr]
    simp only [divisors, List.mem_append, or_and_right, exists_or, or_assoc]
    by_cases hop : op = .div <;> simp [hop]
  | atom signs operand ih =>
    simpa only [denote, divisors, Option.map_eq_none_iff] using ih
  | literal => simp [denote, divisors]
  | ident => simp [denote, divisors]
  | group _ _ _ ih => exact ih

end Phrase

end Abacus
