import Abacus.Arena
import Abacus.Program

set_option autoImplicit false

/-!
# Compiling an arena

The nodes of an expression in post-order are the instructions of a stack machine in the
order of their execution, so a program holds one instruction for each node and a return at
the end.  The header is the greatest depth that the stack reaches on the way.
-/

namespace Abacus

/-- The greatest number of values on the stack while instructions are executed, from a
stack of `depth` values on. -/
def Instruction.peakDepth (depth : Nat) : List Instruction → Nat
  | [] => depth
  | i :: rest => max depth (peakDepth (i.depthAfter depth) rest)

namespace Arena

/-- The instruction that computes a node once its operands are on the stack. -/
def Kind.instruction : Kind → Instruction
  | .literal value => .pushConst value
  | .param index => .pushParam (Int64.ofNat index)
  | .negate _ => .negate
  | .binary op _ _ => .operator op

/-- The instructions of an expression, with the return. -/
def instructions (a : Arena) : List Instruction :=
  (a.postOrder.filterMap fun slot => (a.nodes[slot]?).map (·.kind.instruction)) ++ [.ret]

/-- The program of an expression. -/
def compile (a : Arena) : Program where
  maxStackDepth := Instruction.peakDepth 0 a.instructions
  code := a.instructions.flatMap Instruction.encode
  paramCount := a.paramCount

end Arena

end Abacus
