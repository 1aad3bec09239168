import Abacus.Text.Decimal
import Abacus.Tree

set_option autoImplicit false

/-!
# The written form of a tree

A tree is written with parentheses around every binary operation and nowhere else, a minus
sign directly in front of what it negates, and parameters by their names.  A parameter
without a name is written as `$` and its position.
-/

namespace Abacus

/-- How the parameter at a position is written. -/
def paramName (names : List String) (index : Nat) : String :=
  match names[index]? with
  | some name => name
  | none => "$" ++ Text.decimal index

/-- The written form of a tree. -/
def Tree.text {α : Type} (names : List String) : Tree α → String
  | .literal _ value => Text.signedDecimal value
  | .param _ index => paramName names index
  | .negate _ operand => "-" ++ operand.text names
  | .binary _ op left right =>
    "(" ++ left.text names ++ String.ofList [' ', op.symbol, ' '] ++
      right.text names ++ ")"

end Abacus
