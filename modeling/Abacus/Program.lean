import Abacus.Opcode

set_option autoImplicit false

/-!
# Programs

A program is the code of an expression together with the greatest number of values that
are on the stack at a time.  Written out as words it begins with that number as its
header.
-/

namespace Abacus

/-- A compiled expression. -/
structure Program where
  /-- The number of values that the machine has to have room for. -/
  maxStackDepth : Nat
  /-- The words of the instructions. -/
  code : List Word
  paramCount : Nat
  deriving DecidableEq, Repr

namespace Program

/-- The program as words: the header, followed by the code. -/
def words (p : Program) : List Word :=
  Int64.ofNat p.maxStackDepth :: p.code

end Program

end Abacus
