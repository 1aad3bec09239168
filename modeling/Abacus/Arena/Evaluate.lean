import Abacus.Arena
import Abacus.ExecutionError

set_option autoImplicit false

/-!
# Evaluating an arena

The nodes are computed in post-order.  Each result is kept in a table with one entry per
slot, from which the nodes above read the values of their operands.
-/

namespace Abacus.Arena

/-- The argument for a parameter position. -/
def argument (args : List Int64) (index : Nat) : Except ExecutionError Int64 :=
  match args[index]? with
  | some value => .ok value
  | none => .error (.fault (.argument index))

/-- The result that was computed for a slot. -/
def result (results : Array Int64) (slot : Nat) : Except ExecutionError Int64 :=
  match results[slot]? with
  | some value => .ok value
  | none => .error (.fault (.slot slot))

/-- The value of a node, read from the results of its operands. -/
def nodeValue (args : List Int64) (results : Array Int64) (node : Node) :
    Except ExecutionError Int64 :=
  match node.kind with
  | .literal value => .ok value
  | .param index => argument args index
  | .negate operand => do
    let value ← result results operand
    return -value
  | .binary op left right => do
    let l ← result results left
    let r ← result results right
    match op.compute? l r with
    | some value => .ok value
    | none => .error (.divisionByZero (some node.span) none)

/-- Computes one slot and notes its result. -/
def computeSlot (a : Arena) (args : List Int64) (results : Array Int64) (slot : Nat) :
    Except ExecutionError (Array Int64) :=
  match a.nodes[slot]? with
  | none => .error (.fault (.slot slot))
  | some node => do
    let value ← nodeValue args results node
    return results.setIfInBounds slot value

/-- The value of an expression for a list of arguments, one for each parameter. -/
def evaluate (a : Arena) (args : List Int64) : Except ExecutionError Int64 := do
  checkArgumentCount a.paramCount args.length
  let results ← a.postOrder.foldlM (a.computeSlot args) (Array.replicate a.size 0)
  result results a.root

end Abacus.Arena
