import Abacus.Diagnostic
import Abacus.Text.Decimal
import Abacus.Text.Quoted

set_option autoImplicit false

/-!
# Parse errors

Reading an expression stops at the first violation.  A `ParseError` names its cause and
its place and keeps the source, so that it can be shown without anything else at hand.
Causes carry the data of the violation; their wording is in `Cause.message` and nowhere
else.
-/

namespace Abacus

/-- Why an expression was rejected. -/
inductive ParseError.Cause where
  /-- A character that begins no token. -/
  | illegalCharacter (found : Char)
  /-- A token that the grammar does not allow where it stands. -/
  | illegalToken (expected found : String)
  /-- A group whose closing parenthesis is missing. -/
  | expectedCloseParen (opening : Span) (found : String)
  /-- A parameter name that is no identifier. -/
  | illegalArgumentName (index : Nat) (name : String)
  /-- A parameter name that an earlier parameter has. -/
  | duplicatedArgumentName (index first : Nat) (name : String)
  /-- An identifier that is no parameter. -/
  | undefinedVariable (name : String)
  /-- A literal, or its negation, that does not fit in 64 bits. -/
  | valueOutOfRange
  /-- A divisor that is known to be zero without any argument. -/
  | divisionByZero
  /-- Memory ran out while reading. -/
  | outOfMemory
  /-- More open parentheses than allowed. -/
  | maxDepthExceeded (maxDepth : Nat)
  deriving DecidableEq, Repr, Inhabited

namespace ParseError.Cause

open Text (decimal signedDecimal quoted quotedChar)

/-- The stable code of a cause. -/
def code : Cause → String
  | illegalCharacter _ => "P001"
  | illegalToken _ _ => "P002"
  | expectedCloseParen _ _ => "P003"
  | illegalArgumentName _ _ => "P004"
  | duplicatedArgumentName _ _ _ => "P005"
  | undefinedVariable _ => "P006"
  | valueOutOfRange => "P007"
  | divisionByZero => "P008"
  | outOfMemory => "P009"
  | maxDepthExceeded _ => "P010"

/-- The name of the violated rule. -/
def category : Cause → String
  | illegalCharacter _ => "illegal character"
  | illegalToken _ _ => "illegal token"
  | expectedCloseParen _ _ => "expected close paren"
  | illegalArgumentName _ _ => "illegal argument name"
  | duplicatedArgumentName _ _ _ => "duplicated argument name"
  | undefinedVariable _ => "undefined variable"
  | valueOutOfRange => "value out of range"
  | divisionByZero => "division by zero"
  | outOfMemory => "out of memory"
  | maxDepthExceeded _ => "nesting too deep"

/-- What went wrong, in one line. -/
def message : Cause → String
  | illegalCharacter found => "illegal character " ++ quotedChar found
  | illegalToken expected found => "expected " ++ expected ++ ", found " ++ found
  | expectedCloseParen _ found => "expected ')', found " ++ found
  | illegalArgumentName index name =>
    "argument #" ++ decimal index ++ " has an illegal name " ++ quoted name
  | duplicatedArgumentName index first name =>
    "argument #" ++ decimal index ++ " is named " ++ quoted name
      ++ ", which is already used by argument #" ++ decimal first
  | undefinedVariable name => "undefined variable \x60" ++ name ++ "\x60"
  | valueOutOfRange =>
    "value out of range (limits are " ++ signedDecimal Int64.minValue ++ " to "
      ++ signedDecimal Int64.maxValue ++ ")"
  | divisionByZero => "division by zero"
  | outOfMemory => "out of memory"
  | maxDepthExceeded maxDepth =>
    "parentheses nest deeper than the maximum of " ++ decimal maxDepth ++ " levels"

/-- The parameter that a cause is about, by index and name. -/
def argument : Cause → Option (Nat × String)
  | illegalArgumentName index name => some (index, name)
  | duplicatedArgumentName index _ name => some (index, name)
  | _ => none

/-- How to mend the expression, for the causes that have a single remedy. -/
def help : Cause → Option String
  | expectedCloseParen _ _ => some "add the missing ')'"
  | undefinedVariable _ => some "variables must be declared as parameters"
  | illegalArgumentName _ _ => some "names must match [A-Za-z_][A-Za-z0-9_]*"
  | maxDepthExceeded _ => some "reduce nesting or simplify the expression"
  | _ => none

/-- The other places that explain a cause: an unclosed group points back at its
parenthesis. -/
def related : Cause → List RelatedPlace
  | expectedCloseParen opening _ => [⟨opening, "unclosed '(' opened here"⟩]
  | _ => []

end ParseError.Cause

/-- A violation at a place in the source, before the source itself is attached. -/
structure Violation where
  cause : ParseError.Cause
  span : Span
  deriving DecidableEq, Repr, Inhabited

/-- The first violation in an expression, with the expression's source. -/
structure ParseError where
  cause : ParseError.Cause
  source : String
  /-- The offending range; `Span.nowhere` where a parameter name is at fault. -/
  span : Span
  deriving DecidableEq, Repr, Inhabited

/-- The error that a violation is in a given source. -/
def Violation.inSource (v : Violation) (source : String) : ParseError :=
  ⟨v.cause, source, v.span⟩

namespace ParseError

/-- Category, message and code in one line. -/
def message (e : ParseError) : String :=
  e.cause.category ++ ": " ++ e.cause.message ++ " [" ++ e.cause.code ++ "]"

/-- The diagnostic that describes the error. -/
def diagnostic (e : ParseError) : Diagnostic where
  severity := .error
  message := e.cause.message
  span := e.span
  related := e.cause.related
  help := e.cause.help
  code := some e.cause.code

end ParseError

end Abacus
