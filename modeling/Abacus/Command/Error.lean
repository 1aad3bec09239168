import Abacus.Text.Decimal

set_option autoImplicit false

/-!
# Errors of the command

Beside the failures of single expressions, the command itself can fail: a binding cannot
be read, the strategies disagree, the input cannot be read.  At the end it also reports
how many expressions failed.
-/

namespace Abacus

/-- Why the command fails. -/
inductive CommandError where
  /-- A parameter binding that cannot be read, as it was given. -/
  | invalidBinding (raw : String)
  /-- Two strategies with different outcomes. -/
  | mismatch (source details : String)
  /-- Expressions that failed. -/
  | failed (count : Nat)
  /-- Standard input that cannot be read. -/
  | io
  deriving DecidableEq, Repr, Inhabited

namespace CommandError

/-- What went wrong, in one line. -/
def message : CommandError → String
  | invalidBinding raw => "invalid parameter binding \x60" ++ raw ++ "\x60"
  | mismatch source details =>
    "strategies disagree on \x60" ++ source ++ "\x60: " ++ details
  | failed count => Text.decimal count ++ " expression(s) failed"
  | io => "failed to read standard input"

/-- The stable code of an error. -/
def code : CommandError → String
  | invalidBinding _ => "reckon::cli::binding"
  | mismatch _ _ => "reckon::cli::mismatch"
  | failed _ => "reckon::cli::failed"
  | io => "reckon::cli::io"

/-- How to mend the call, for the errors that have a single remedy. -/
def help : CommandError → Option String
  | invalidBinding _ => some "use name=value, e.g. -p x=42"
  | _ => none

end CommandError

end Abacus
