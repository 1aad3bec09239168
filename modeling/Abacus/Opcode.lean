import Abacus.Operator

set_option autoImplicit false

/-!
# Opcodes and instructions

A compiled expression is a sequence of 64-bit words.  An instruction is one opcode word,
followed by one operand word if it pushes a constant or an argument.  `Instruction.encode`
writes an instruction, and `fetch` reads the one at the front of a sequence of words.
-/

namespace Abacus

/-- One cell of a compiled expression, and one value on the machine's stack. -/
abbrev Word : Type := Int64

/-- The operation of an instruction. -/
inductive Opcode where
  /-- Replaces the two topmost values by their sum. -/
  | add
  /-- Replaces the two topmost values by their difference. -/
  | sub
  /-- Replaces the two topmost values by their product. -/
  | mul
  /-- Replaces the two topmost values by their quotient; fails for a zero divisor. -/
  | div
  /-- Negates the topmost value. -/
  | negate
  /-- Pushes the operand word. -/
  | pushConst
  /-- Pushes the argument at the position that the operand word gives. -/
  | pushParam
  /-- Ends the run with the topmost value as its result. -/
  | ret
  deriving DecidableEq, Repr, Inhabited

namespace Opcode

/-- Every opcode, in the order of the words that stand for them. -/
def all : List Opcode :=
  [add, sub, mul, div, negate, pushConst, pushParam, ret]

/-- The word that stands for an opcode. -/
def word : Opcode → Word
  | add => 0
  | sub => 1
  | mul => 2
  | div => 3
  | negate => 4
  | pushConst => 5
  | pushParam => 6
  | ret => 7

/-- The opcode that a word stands for. -/
def ofWord? (w : Word) : Option Opcode :=
  all.find? fun op => op.word == w

/-- The number of operand words behind the opcode. -/
def operandWords : Opcode → Nat
  | pushConst | pushParam => 1
  | _ => 0

/-- The name of the opcode in a listing. -/
def mnemonic : Opcode → String
  | add => "Add"
  | sub => "Sub"
  | mul => "Mul"
  | div => "Div"
  | negate => "Negate"
  | pushConst => "PushConst"
  | pushParam => "PushParam"
  | ret => "Return"

/-- The opcode that computes an operator. -/
def ofOperator : Operator → Opcode
  | .add => add
  | .sub => sub
  | .mul => mul
  | .div => div

theorem ofWord?_word (op : Opcode) : ofWord? op.word = some op := by
  cases op <;> decide

end Opcode

/-- An instruction with its operand. -/
inductive Instruction where
  | operator (op : Operator)
  | negate
  | pushConst (value : Word)
  | pushParam (index : Word)
  | ret
  deriving DecidableEq, Repr, Inhabited

namespace Instruction

/-- The operation of an instruction. -/
def opcode : Instruction → Opcode
  | operator op => .ofOperator op
  | negate => .negate
  | pushConst _ => .pushConst
  | pushParam _ => .pushParam
  | ret => .ret

/-- The words of an instruction. -/
def encode (i : Instruction) : List Word :=
  match i with
  | pushConst value => [i.opcode.word, value]
  | pushParam index => [i.opcode.word, index]
  | _ => [i.opcode.word]

/-- The number of values on the stack after an instruction, from the number before it. -/
def depthAfter (depth : Nat) : Instruction → Nat
  | operator _ => depth - 1
  | negate => depth
  | pushConst _ => depth + 1
  | pushParam _ => depth + 1
  | ret => depth - 1

end Instruction

/-- What stands at the front of a sequence of words. -/
inductive Fetch where
  /-- No word at all. -/
  | finished
  /-- A word that is no opcode. -/
  | invalid (word : Word) (rest : List Word)
  /-- An opcode whose operand word is missing. -/
  | truncated (op : Opcode)
  | instruction (i : Instruction) (rest : List Word)
  deriving DecidableEq, Repr

/-- Reads the instruction at the front of a sequence of words. -/
def fetch : List Word → Fetch
  | [] => .finished
  | w :: rest =>
    match Opcode.ofWord? w with
    | none => .invalid w rest
    | some .add => .instruction (.operator .add) rest
    | some .sub => .instruction (.operator .sub) rest
    | some .mul => .instruction (.operator .mul) rest
    | some .div => .instruction (.operator .div) rest
    | some .negate => .instruction .negate rest
    | some .ret => .instruction .ret rest
    | some .pushConst =>
      match rest with
      | [] => .truncated .pushConst
      | value :: rest => .instruction (.pushConst value) rest
    | some .pushParam =>
      match rest with
      | [] => .truncated .pushParam
      | index :: rest => .instruction (.pushParam index) rest

/-- Reading takes what writing puts in front. -/
@[simp] theorem fetch_encode (i : Instruction) (rest : List Word) :
    fetch (i.encode ++ rest) = .instruction i rest := by
  cases i with
  | operator op =>
    cases op <;> simp [Instruction.encode, Instruction.opcode, Opcode.ofOperator, fetch,
      Opcode.ofWord?_word]
  | negate => simp [Instruction.encode, Instruction.opcode, fetch, Opcode.ofWord?_word]
  | pushConst => simp [Instruction.encode, Instruction.opcode, fetch, Opcode.ofWord?_word]
  | pushParam => simp [Instruction.encode, Instruction.opcode, fetch, Opcode.ofWord?_word]
  | ret => simp [Instruction.encode, Instruction.opcode, fetch, Opcode.ofWord?_word]

/-- An instruction takes at least one word. -/
theorem length_lt_of_fetch {words rest : List Word} {i : Instruction}
    (h : fetch words = .instruction i rest) : rest.length < words.length := by
  cases words with
  | nil => simp [fetch] at h
  | cons w tail =>
    have htail : rest.length ≤ tail.length := by
      simp only [fetch] at h
      cases hop : Opcode.ofWord? w with
      | none => simp [hop] at h
      | some op =>
        cases op <;> simp only [hop] at h
        case pushConst | pushParam =>
          cases tail with
          | nil => simp at h
          | cons v rest' =>
            obtain ⟨-, rfl⟩ := Fetch.instruction.inj h
            simp
        all_goals
          obtain ⟨-, rfl⟩ := Fetch.instruction.inj h
          exact Nat.le_refl _
    exact Nat.lt_succ_of_le htail

end Abacus
