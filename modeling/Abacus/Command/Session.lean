import Abacus.Command.Arguments
import Abacus.Failure.Description

set_option autoImplicit false

/-!
# Interpreting expressions

The command evaluates one expression after the other.  For each it prints what the
settings ask for and then the value, or reports the failure.  If it evaluates by several
strategies, their outcomes have to agree: equal values, or failures of the same kind.  The
first strategy that differs from the first one ends the session.
-/

namespace Abacus

open Text (decimal signedDecimal)

/-! ## Outcomes -/

/-- What an evaluation leads to. -/
abbrev EvaluationOutcome : Type := Except Failure Int64

/-- An outcome in words. -/
def EvaluationOutcome.describe : EvaluationOutcome → String
  | .ok value => "Ok(" ++ signedDecimal value ++ ")"
  | .error failure => "Err(" ++ failure.describe ++ ")"

/-! ## Agreement -/

/-- Whether two failures are of the same kind. -/
def Failure.sameKind : Failure → Failure → Bool
  | .api _, .api _ => true
  | .compilation _ _, .compilation _ _ => true
  | .runtime _ _, .runtime _ _ => true
  | .resourceExceeded _, .resourceExceeded _ => true
  | _, _ => false

/-- Whether two outcomes agree: equal values, or failures of the same kind. -/
def EvaluationOutcome.agrees : EvaluationOutcome → EvaluationOutcome → Bool
  | .ok a, .ok b => a == b
  | .error a, .error b => a.sameKind b
  | _, _ => false

/-- The outcome of the first strategy, if all others agree with it. -/
def agreedOutcome (source : String) (first : Strategy × EvaluationOutcome)
    (others : List (Strategy × EvaluationOutcome)) :
    Except CommandError EvaluationOutcome :=
  match others.find? fun other => !first.2.agrees other.2 with
  | none => .ok first.2
  | some other =>
    .error (.mismatch source
      (first.1.name ++ " gave " ++ first.2.describe ++ ", " ++ other.1.name ++ " gave "
        ++ other.2.describe))

/-! ## One expression -/

/-- What the interpretation of one expression leads to. -/
structure Interpretation where
  /-- What is printed. -/
  output : String
  /-- The failures that are reported. -/
  failures : List Failure
  /-- Whether the expression has a value, unless the session ends here. -/
  result : Except CommandError Bool

namespace Settings

/-- The names of the parameters. -/
def names (s : Settings) : List String := s.bindings.map Binding.name

/-- The arguments, in the order of the parameters. -/
def arguments (s : Settings) : List Int64 := s.bindings.map Binding.value

/-- How expressions are compiled. -/
def options (s : Settings) : Options := ⟨!s.noOptimize, s.maxDepth⟩

/-- What is printed of an expression before it is evaluated. -/
def preamble (s : Settings) (e : Expression) : String :=
  let simplified :=
    if s.noOptimize then "" else "=== Optimized AST ===\n" ++ e.optimizedText ++ "\n"
  let trees :=
    if s.printAst then "=== AST ===\n" ++ e.arenaText ++ "\n" ++ simplified ++ "\n" else ""
  let program :=
    if s.printBytecode then "=== Bytecode ===\n" ++ e.programText ++ "\n" else ""
  trees ++ program

/-- The outcome of a strategy, under its name. -/
def outcome (s : Settings) (e : Expression) (strategy : Strategy) :
    Strategy × EvaluationOutcome :=
  (strategy, e.run s.arguments strategy)

/-- Interprets one expression. -/
def interpret (s : Settings) (input : String) : Interpretation :=
  match Expression.compile input s.names s.options with
  | .error failure => ⟨"", [failure], .ok false⟩
  | .ok e =>
    let first := s.outcome e s.selection.first
    match agreedOutcome input first (s.selection.others.map (s.outcome e)) with
    | .error error => ⟨s.preamble e, [], .error error⟩
    | .ok (.ok value) => ⟨s.preamble e ++ signedDecimal value ++ "\n", [], .ok true⟩
    | .ok (.error failure) => ⟨s.preamble e, [failure], .ok false⟩

end Settings

/-! ## The session -/

/-- What a whole session prints and reports, and the error that ended it. -/
structure Session where
  output : String
  failures : List Failure
  error : Option CommandError
  deriving DecidableEq

namespace Session

/-- The session after one more interpretation. -/
def after (i : Interpretation) (rest : Session) : Session :=
  { rest with output := i.output ++ rest.output, failures := i.failures ++ rest.failures }

/-- The error that tells the number of failed expressions, if there are any. -/
def failedError (count : Nat) : Option CommandError :=
  if count = 0 then none else some (.failed count)

/-- Interprets the lines of the input, after `failed` expressions have failed.  Blank
lines are skipped; a line that cannot be read ends the session. -/
def interpretLines (s : Settings) (failed : Nat) : List (Option String) → Session
  | [] => ⟨"", [], failedError failed⟩
  | none :: _ => ⟨"", [], some .io⟩
  | some line :: more =>
    if (Text.trim line.toList).isEmpty then interpretLines s failed more
    else
      let i := s.interpret line
      match i.result with
      | .error error => ⟨i.output, i.failures, some error⟩
      | .ok succeeded =>
        after i (interpretLines s (if succeeded then failed else failed + 1) more)

/-- Interprets a single expression. -/
def interpretAlone (s : Settings) (expression : String) : Session :=
  let i := s.interpret expression
  match i.result with
  | .error error => ⟨i.output, i.failures, some error⟩
  | .ok succeeded => ⟨i.output, i.failures, failedError (if succeeded then 0 else 1)⟩

/-- Interprets the expression of the settings, or else the lines of the input. -/
def ofSettings (s : Settings) (lines : List (Option String)) : Session :=
  match s.expression with
  | some expression => interpretAlone s expression
  | none => interpretLines s 0 lines

/-- The exit status of the command after a session. -/
def exitStatus (session : Session) : Nat :=
  if session.error.isSome then 1 else 0

end Session

end Abacus
