import Abacus.Span

set_option autoImplicit false

/-!
# Diagnostics

Every error that reaches the user is described by a diagnostic: what is wrong, where,
which other places have to do with it, how to mend it, and a stable code to look it up by.
-/

namespace Abacus

/-- How grave a diagnostic is. -/
inductive Severity where
  | error
  | warning
  | info
  deriving DecidableEq, Repr, Inhabited

/-- The word for a severity. -/
def Severity.name : Severity → String
  | error => "error"
  | warning => "warning"
  | info => "info"

/-- Another place in the source that explains a diagnostic. -/
structure RelatedPlace where
  span : Span
  message : String
  deriving DecidableEq, Repr, Inhabited

/-- The description of one problem in a source text. -/
structure Diagnostic where
  severity : Severity
  message : String
  /-- The place of the problem; `Span.nowhere` for a problem without one. -/
  span : Span
  related : List RelatedPlace
  help : Option String
  code : Option String
  deriving DecidableEq, Repr, Inhabited

end Abacus
