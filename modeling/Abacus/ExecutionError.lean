import Abacus.Diagnostic
import Abacus.Text.Decimal

set_option autoImplicit false

/-!
# Errors of an evaluation

An expression that was accepted can still fail to have a value: a divisor may be zero for
the given arguments, or the number of arguments may be wrong.  The evaluation of a stored
tree reports the span of the division, the stack machine the offset of its instruction.

Evaluators work on tables of nodes and words that are plain data.  What they do on data
that no expression gives rise to, such as a reference out of the table, is a `Fault`.
-/

namespace Abacus

/-- An access that a well-formed arena or program never asks for. -/
inductive Fault where
  /-- A slot outside the arena. -/
  | slot (slot : Nat)
  /-- A parameter position without an argument. -/
  | argument (index : Int)
  /-- The end of the code where an instruction has to be. -/
  | endOfCode (offset : Nat)
  /-- A word that is no opcode where an instruction has to be. -/
  | opcode (offset : Nat)
  /-- An instruction without its operand word. -/
  | truncated (offset : Nat)
  /-- A value pushed on a full stack. -/
  | stackOverflow (offset : Nat)
  /-- A value taken from a stack that holds too few. -/
  | stackUnderflow (offset : Nat)
  /-- Values left on the stack beside the result. -/
  | leftover (offset : Nat)
  deriving DecidableEq, Repr, Inhabited

/-- Why an evaluation has no value. -/
inductive ExecutionError where
  /-- A divisor is zero; the division is named by its span or by the offset of its
  instruction. -/
  | divisionByZero (span : Option Span) (offset : Option Nat)
  | argumentCount (expected actual : Nat)
  | outOfMemory
  | fault (fault : Fault)
  deriving DecidableEq, Repr, Inhabited

namespace ExecutionError

open Text (decimal)

/-- The stable code of an error. -/
def code : ExecutionError → String
  | divisionByZero _ _ => "R001"
  | argumentCount _ _ => "R002"
  | outOfMemory => "R003"
  | fault _ => "R004"

/-- What went wrong, without the place in the source. -/
def text : ExecutionError → String
  | divisionByZero _ (some offset) =>
    "division by zero (instruction at offset " ++ decimal offset ++ ")"
  | divisionByZero _ none => "division by zero"
  | argumentCount expected actual =>
    "expected " ++ decimal expected ++ " argument(s), got " ++ decimal actual
  | outOfMemory => "out of memory"
  | fault _ => "malformed expression data"

/-- What went wrong and where, in one line. -/
def message (e : ExecutionError) : String :=
  match e with
  | divisionByZero (some span) _ =>
    e.text ++ " at " ++ decimal span.start ++ ".." ++ decimal span.stop
  | _ => e.text

/-- The span of an error; `Span.nowhere` if it has none. -/
def span : ExecutionError → Span
  | divisionByZero (some span) _ => span
  | _ => .nowhere

/-- The diagnostic that describes the error. -/
def diagnostic (e : ExecutionError) : Diagnostic where
  severity := .error
  message := e.text
  span := e.span
  related := []
  help := none
  code := some e.code

end ExecutionError

/-- Refuses every number of arguments but the expected one. -/
def checkArgumentCount (expected actual : Nat) : Except ExecutionError Unit :=
  if expected = actual then .ok () else .error (.argumentCount expected actual)

end Abacus
