import Abacus.ExecutionError
import Abacus.Program

set_option autoImplicit false

/-!
# The stack machine

The machine takes the instructions of a program one by one and keeps its values on a stack
that holds no more of them than the header of the program announces.  There are no jumps,
so what is left of the code says where the machine is; the offset is kept for the report
of a division by zero.  Pushing on a full stack, taking from an empty one and meeting
something that is no instruction are faults.
-/

namespace Abacus

/-- The machine between two instructions. -/
structure Machine where
  /-- The words that are still to be executed. -/
  rest : List Word
  /-- The offset of those words in the code. -/
  offset : Nat
  /-- The values, the topmost first. -/
  stack : List Word
  deriving DecidableEq, Repr

namespace Machine

/-- What one instruction leads to. -/
inductive Outcome where
  | next (m : Machine)
  | result (value : Word)
  | failure (e : ExecutionError)
  deriving DecidableEq, Repr

/-- Pushes a value, the effect of an instruction of two words behind which the words
`rest` stand. -/
def push (capacity : Nat) (m : Machine) (value : Word) (rest : List Word) : Outcome :=
  if m.stack.length < capacity then .next ⟨rest, m.offset + 2, value :: m.stack⟩
  else .failure (.fault (.stackOverflow m.offset))

/-- The argument at the position that an operand word gives, read without a sign. -/
def argument? (args : List Int64) (index : Word) : Option Word :=
  args[index.toUInt64.toNat]?

/-- Pushes an argument. -/
def pushArgument (capacity : Nat) (args : List Int64) (m : Machine) (index : Word)
    (rest : List Word) : Outcome :=
  match argument? args index with
  | some value => push capacity m value rest
  | none => .failure (.fault (.argument index.toInt))

/-- Replaces the topmost value by its negation. -/
def negateTop (m : Machine) (rest : List Word) : Outcome :=
  match m.stack with
  | value :: below => .next ⟨rest, m.offset + 1, -value :: below⟩
  | [] => .failure (.fault (.stackUnderflow m.offset))

/-- Replaces the two topmost values by the result of an operator; the right operand lies
on top. -/
def combineTop (m : Machine) (op : Operator) (rest : List Word) : Outcome :=
  match m.stack with
  | right :: left :: below =>
    match op.compute? left right with
    | some value => .next ⟨rest, m.offset + 1, value :: below⟩
    | none => .failure (.divisionByZero none (some m.offset))
  | _ => .failure (.fault (.stackUnderflow m.offset))

/-- Ends the run with the only value on the stack. -/
def finish (m : Machine) : Outcome :=
  match m.stack with
  | [] => .failure (.fault (.stackUnderflow m.offset))
  | [value] => .result value
  | _ => .failure (.fault (.leftover m.offset))

/-- Executes an instruction, behind which the words `rest` stand. -/
def execute (capacity : Nat) (args : List Int64) (m : Machine) (i : Instruction)
    (rest : List Word) : Outcome :=
  match i with
  | .operator op => combineTop m op rest
  | .negate => negateTop m rest
  | .pushConst value => push capacity m value rest
  | .pushParam index => pushArgument capacity args m index rest
  | .ret => finish m

/-- Executes the instruction at the front of the code. -/
def step (capacity : Nat) (args : List Int64) (m : Machine) : Outcome :=
  match fetch m.rest with
  | .finished => .failure (.fault (.endOfCode m.offset))
  | .invalid _ _ => .failure (.fault (.opcode m.offset))
  | .truncated _ => .failure (.fault (.truncated m.offset))
  | .instruction i rest => execute capacity args m i rest

theorem next_of_push {capacity : Nat} {m n : Machine} {value : Word} {rest : List Word}
    (h : push capacity m value rest = .next n) :
    n.rest = rest ∧ n.stack.length ≤ capacity := by
  unfold push at h
  split at h
  · rename_i hroom
    cases h
    exact ⟨rfl, hroom⟩
  · cases h

/-- An instruction that does not end the run leaves the words behind it, and more values
than there were only within the capacity. -/
theorem next_of_execute {capacity : Nat} {args : List Int64} {m n : Machine}
    {i : Instruction} {rest : List Word} (h : execute capacity args m i rest = .next n) :
    n.rest = rest ∧ n.stack.length ≤ max capacity m.stack.length := by
  cases i with
  | operator op =>
    simp only [execute, combineTop] at h
    split at h
    · rename_i hstack
      split at h
      · cases h
        refine ⟨rfl, Nat.le_trans ?_ (Nat.le_max_right _ _)⟩
        rw [hstack]
        exact Nat.le_succ _
      · cases h
    · cases h
  | negate =>
    simp only [execute, negateTop] at h
    split at h
    · rename_i hstack
      cases h
      refine ⟨rfl, Nat.le_trans ?_ (Nat.le_max_right _ _)⟩
      rw [hstack]
      exact Nat.le_refl _
    · cases h
  | pushConst value =>
    obtain ⟨hrest, hlength⟩ := next_of_push h
    exact ⟨hrest, Nat.le_trans hlength (Nat.le_max_left _ _)⟩
  | pushParam index =>
    simp only [execute, pushArgument] at h
    split at h
    · obtain ⟨hrest, hlength⟩ := next_of_push h
      exact ⟨hrest, Nat.le_trans hlength (Nat.le_max_left _ _)⟩
    · cases h
  | ret =>
    simp only [execute, finish] at h
    split at h <;> cases h

/-- A step leaves less code to execute. -/
theorem length_rest_lt_of_step {capacity : Nat} {args : List Int64} {m n : Machine}
    (h : step capacity args m = .next n) : n.rest.length < m.rest.length := by
  unfold step at h
  split at h
  · cases h
  · cases h
  · cases h
  · rename_i i rest hfetch
    rw [(next_of_execute h).1]
    exact length_lt_of_fetch hfetch

/-- Executes instructions until the machine stops. -/
def run (capacity : Nat) (args : List Int64) (m : Machine) : Except ExecutionError Word :=
  match _h : step capacity args m with
  | .next n => run capacity args n
  | .result value => .ok value
  | .failure e => .error e
termination_by m.rest.length
decreasing_by exact length_rest_lt_of_step _h

/-- The machine before the first instruction of some code. -/
def start (code : List Word) : Machine := ⟨code, 0, []⟩

end Machine

/-- The value of a program for a list of arguments, one for each parameter. -/
def Program.run (p : Program) (args : List Int64) : Except ExecutionError Int64 := do
  checkArgumentCount p.paramCount args.length
  Machine.run p.maxStackDepth args (Machine.start p.code)

end Abacus
