import Abacus.Command.Error
import Abacus.Text.Blank
import Abacus.Text.Decimal

set_option autoImplicit false

/-!
# Parameter bindings

On the command line a parameter is bound to a value by `name=value`.  The first equals
sign separates the two, blanks around each of them do not count, and the value is a signed
decimal numeral that fits in 64 bits.
-/

namespace Abacus

/-- A parameter's name with its value. -/
structure Binding where
  name : String
  value : Int64
  deriving DecidableEq, Repr

/-- Splits a text at its first equals sign; there is none in a text without one. -/
def splitAtEquals? : List Char → Option (List Char × List Char)
  | [] => none
  | c :: cs =>
    if c = '=' then some ([], cs) else (splitAtEquals? cs).map fun parts =>
      (c :: parts.1, parts.2)

/-- Reads a binding. -/
def Binding.parse (raw : String) : Except CommandError Binding :=
  let binding? : Option Binding := do
    let (name, value) ← splitAtEquals? raw.toList
    let value ← Text.readSigned? (Text.trim value)
    return ⟨String.ofList (Text.trim name), value⟩
  match binding? with
  | some binding => .ok binding
  | none => .error (.invalidBinding raw)

end Abacus
