import Abacus.ExecutionError
import Abacus.ParseError

set_option autoImplicit false

/-!
# Failures

Whoever uses the library sees one type of error.  A `Failure` says whether the call was
wrong, the expression was rejected, its evaluation failed or a resource ran out, and
carries the diagnostics together with the source that their spans refer to.
-/

namespace Abacus

/-- Compiling a program has one way to fail. -/
inductive CompileError where
  | outOfMemory
  deriving DecidableEq, Repr, Inhabited

namespace CompileError

/-- The stable code of an error. -/
def code : CompileError → String
  | outOfMemory => "C001"

/-- What went wrong, as a sentence of its own. -/
def message : CompileError → String
  | outOfMemory => "Out of memory while emitting bytecode"

/-- The diagnostic that describes the error. -/
def diagnostic (e : CompileError) : Diagnostic where
  severity := .error
  message := match e with
    | outOfMemory => "out of memory while emitting bytecode"
  span := .nowhere
  related := []
  help := none
  code := some e.code

end CompileError

/-- Why a call of the library gives no result. -/
inductive Failure where
  /-- The call itself is wrong. -/
  | api (text : String)
  /-- The expression was rejected. -/
  | compilation (diagnostics : List Diagnostic) (source : String)
  /-- The expression has no value for the given arguments. -/
  | runtime (diagnostic : Diagnostic) (source : String)
  /-- A resource ran out. -/
  | resourceExceeded (text : String)
  deriving DecidableEq, Repr, Inhabited

namespace Failure

/-- The failure of a rejected expression. -/
def ofParseError (e : ParseError) : Failure :=
  .compilation [e.diagnostic] e.source

/-- The failure of a compilation. -/
def ofCompileError (e : CompileError) : Failure :=
  match e with
  | .outOfMemory => .resourceExceeded e.diagnostic.message

/-- The failure of an evaluation, whose source is not known yet. -/
def ofExecutionError (e : ExecutionError) : Failure :=
  match e with
  | .argumentCount _ _ => .api e.text
  | .outOfMemory => .resourceExceeded e.text
  | .fault _ => .api e.text
  | .divisionByZero _ _ => .runtime e.diagnostic ""

/-- Attaches a source to a failed evaluation that has none yet. -/
def withSource (source : String) : Failure → Failure
  | .runtime diagnostic known =>
    .runtime diagnostic (if known.isEmpty then source else known)
  | failure => failure

/-- The source that the spans of a failure refer to. -/
def source? : Failure → Option String
  | .compilation _ source => some source
  | .runtime _ source => some source
  | _ => none

/-- The diagnostics of a failure, in the order in which they are reported. -/
def diagnostics : Failure → List Diagnostic
  | .compilation diagnostics _ => diagnostics
  | .runtime diagnostic _ => [diagnostic]
  | _ => []

/-- The failure in one line. -/
def message : Failure → String
  | .api text => "API error: " ++ text
  | .compilation diagnostics _ =>
    "Compilation failed with "
      ++ Text.decimal (diagnostics.countP fun d => d.severity == .error) ++ " error(s)"
  | .runtime diagnostic _ => "Runtime error: " ++ diagnostic.message
  | .resourceExceeded text => "Resource limit exceeded: " ++ text

end Failure

end Abacus
