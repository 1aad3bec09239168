set_option autoImplicit false

/-!
# Operators on 64-bit integers

The language has one kind of value, the 64-bit two's-complement integer, and four binary
operators.  Addition, subtraction, multiplication and negation wrap around, as the
operations of `Int64` do.  Division truncates toward zero; the one quotient that does not
fit, the least integer over `-1`, wraps to the least integer.  Division by zero has no
value, which is the only way in which an operator can fail.
-/

namespace Abacus

/-- A binary operator of the language. -/
inductive Operator where
  | add
  | sub
  | mul
  | div
  deriving DecidableEq, Repr, Inhabited

namespace Operator

/-- The character that stands for the operator in an expression. -/
def symbol : Operator → Char
  | add => '+'
  | sub => '-'
  | mul => '*'
  | div => '/'

/-- The inverse operator of the additive pair; the multiplicative operators stay as they
are. -/
def flipped : Operator → Operator
  | add => sub
  | sub => add
  | mul => mul
  | div => div

/-- Addition and subtraction bind weaker than the other two. -/
def isAdditive : Operator → Bool
  | add | sub => true
  | mul | div => false

/-- The value of `left op right`; none exactly for a division by zero. -/
def compute? (op : Operator) (left right : Int64) : Option Int64 :=
  match op with
  | add => some (left + right)
  | sub => some (left - right)
  | mul => some (left * right)
  | div => if right = 0 then none else some (left / right)

/-- Only a zero divisor leaves an operator without a value. -/
theorem compute?_eq_none_iff {op : Operator} {left right : Int64} :
    op.compute? left right = none ↔ op = div ∧ right = 0 := by
  cases op <;> simp [compute?]

end Operator

end Abacus
