import Abacus.Program
import Abacus.Tree.Text

set_option autoImplicit false

/-!
# Listings

A listing shows the header of a program and then one line for each instruction: the offset
of its first word in the code, with at least four digits, its name and its operand.
Parameters are shown by name where one is known, and otherwise as `$` and the operand
word.
-/

namespace Abacus

namespace Program

/-- How the parameter in an operand word is shown. -/
def operandName (names : List String) (index : Word) : String :=
  if index.toInt < 0 then "$" ++ Text.signedDecimal index
  else paramName names index.toInt.toNat

/-- How an instruction is shown. -/
def showInstruction (names : List String) : Instruction → String
  | .pushConst value => Opcode.pushConst.mnemonic ++ " " ++ Text.signedDecimal value
  | .pushParam index => Opcode.pushParam.mnemonic ++ " " ++ operandName names index
  | i => i.opcode.mnemonic

/-- One line of a listing, for what stands at an offset. -/
def listingLine (offset : Nat) (shown : String) : String :=
  Text.zeroPadded 4 offset ++ "  " ++ shown

theorem length_lt_of_fetch_invalid {words rest : List Word} {w : Word}
    (h : fetch words = .invalid w rest) : rest.length < words.length := by
  unfold fetch at h
  split at h
  · cases h
  · split at h <;> try cases h
    · simp
    all_goals split at h <;> cases h

/-- The lines of a listing for words that begin at an offset.  A word that is no opcode
gets a line of its own, and so does an instruction whose operand is missing. -/
def listingLines (names : List String) (offset : Nat) (words : List Word) : List String :=
  match _h : fetch words with
  | .finished => []
  | .invalid w rest =>
    listingLine offset ("<invalid opcode " ++ Text.signedDecimal w ++ ">")
      :: listingLines names (offset + 1) rest
  | .truncated op => [listingLine offset (op.mnemonic ++ " <truncated>")]
  | .instruction i rest =>
    listingLine offset (showInstruction names i)
      :: listingLines names (offset + 1 + i.opcode.operandWords) rest
termination_by words.length
decreasing_by
  · exact length_lt_of_fetch_invalid _h
  · exact length_lt_of_fetch _h

/-- The listing of a program. -/
def listing (p : Program) (names : List String) : String :=
  let header := "stack size: " ++ Text.decimal p.maxStackDepth
  String.join ((header :: listingLines names 0 p.code).map (· ++ "\n"))

/-- The listing of a program without names, under a line that tells the number of its
parameters. -/
def describe (p : Program) : String :=
  "Program (params: " ++ Text.decimal p.paramCount ++ ")\n" ++ p.listing []

end Program

end Abacus
