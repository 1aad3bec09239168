import Abacus.Proofs.Strategies

set_option autoImplicit false

/-!
# The use of the stack

The machine has only as much room as the header of a program announces, and it relies on
the compiler for everything else: that there is a value wherever one is taken, that
instructions are whole and that arguments exist.  For the programs of accepted sources no
state that the machine reaches breaks this.  The machine stops at the return, with one
value on the stack, or at a division by zero, and a run up to the return has filled the
room that was announced.

Main statements:

* `Machine.Next.length_le`: no instruction lets the stack outgrow its room.
* `Machine.Stops.no_fault`: on the way to a proper end there is no fault.
* `Arena.stack_use`: what holds of a run of a compiled source.
-/

namespace Abacus

namespace Machine

variable {capacity : Nat} {args : List Int64} {m n f : Machine}

/-! ## Proper ends of a run -/

/-- The machine stands at a return with one value on the stack, or at a division by zero.
It gives that value, or the offset of that division. -/
inductive Stops : Machine → Except ExecutionError Word → Prop
  | ret (offset : Nat) (value : Word) :
    Stops ⟨Instruction.ret.encode, offset, [value]⟩ (.ok value)
  | zeroDivisor (rest : List Word) (offset : Nat) (left : Word) (below : List Word) :
    Stops ⟨(Instruction.operator .div).encode ++ rest, offset, 0 :: left :: below⟩
      (.error (.divisionByZero none (some offset)))

variable {result : Except ExecutionError Word}

theorem Stops.run_eq (h : Stops m result) : run capacity args m = result := by
  cases h with
  | ret => exact run_of_result step_ret
  | zeroDivisor => exact run_of_failure step_zero_divisor

/-- There a step gives a value or a division by zero, so it is neither a fault nor
followed by another step. -/
theorem Stops.step_eq (h : Stops m result) :
    (∃ value, step capacity args m = .result value) ∨
      ∃ offset, step capacity args m = .failure (.divisionByZero none (some offset)) := by
  cases h with
  | ret => exact Or.inl ⟨_, step_ret⟩
  | zeroDivisor => exact Or.inr ⟨_, step_zero_divisor⟩

theorem Stops.not_next (h : Stops m result) : ¬ Next capacity args m n := by
  intro hnext
  rcases h.step_eq with ⟨_, hstep⟩ | ⟨_, hstep⟩ <;> cases hstep.symm.trans hnext

theorem Stops.step_ne_fault (h : Stops m result) (e : Fault) :
    step capacity args m ≠ .failure (.fault e) := by
  intro hfault
  rcases h.step_eq with ⟨_, hstep⟩ | ⟨_, hstep⟩ <;> cases hstep.symm.trans hfault

/-- The machine has one run: whatever state it reaches lies before its end. -/
theorem Reaches.before_end (hend : ∀ w, ¬ Next capacity args f w)
    (hf : Reaches capacity args m f) (hn : Reaches capacity args m n) :
    Reaches capacity args n f :=
  Relation.ReflTransGen.before_end (fun _ _ _ h h' => Outcome.next.inj (h.symm.trans h'))
    hend hf hn

/-- On the way to a proper end there is no fault. -/
theorem Stops.no_fault (h : Stops f result) (hf : Reaches capacity args m f)
    (hn : Reaches capacity args m n) (e : Fault) :
    step capacity args n ≠ .failure (.fault e) := by
  intro hfault
  rcases Relation.ReflTransGen.cases_head (hf.before_end (fun _ => h.not_next) hn) with
    rfl | ⟨w, hnext, -⟩
  · exact h.step_ne_fault e hfault
  · cases hnext.symm.trans hfault

/-! ## The room on the stack -/

/-- No instruction lets the stack outgrow its room. -/
theorem Next.length_le (h : Next capacity args m n) (hm : m.stack.length ≤ capacity) :
    n.stack.length ≤ capacity := by
  unfold Next step at h
  split at h
  · cases h
  · cases h
  · cases h
  · have hgrown := (next_of_execute h).2
    rwa [Nat.max_eq_left hm] at hgrown

/-- In a run from an empty stack, the stack never outgrows its room. -/
theorem Reaches.length_le {code : List Word} (h : Reaches capacity args (start code) m) :
    m.stack.length ≤ capacity := by
  induction h with
  | refl => exact Nat.zero_le capacity
  | tail _ hnext ih => exact hnext.length_le ih

end Machine

namespace Arena

open Machine (Reaches Stops)

variable {a : Arena} {t : Tree Place} {args : List Int64}

/-- The states that the program of an arena reaches. -/
def RunReaches (a : Arena) (args : List Int64) (m : Machine) : Prop :=
  Reaches a.compile.maxStackDepth args (Machine.start a.compile.code) m

/-- The program of an arena gets along with the room that its header announces, and needs
it. -/
structure RunsSafely (a : Arena) (args : List Int64) : Prop where
  /-- The stack never outgrows its room. -/
  room : ∀ m, a.RunReaches args m → m.stack.length ≤ a.compile.maxStackDepth
  /-- No value is taken from an empty stack or pushed on a full one, no value is left
  over, and neither the code nor the arguments are read where there are none. -/
  noFault : ∀ m, a.RunReaches args m → ∀ e,
    Machine.step a.compile.maxStackDepth args m ≠ .failure (.fault e)
  /-- The run comes to a proper end. -/
  ends : ∃ m, a.RunReaches args m ∧ Stops m (a.compile.run args)
  /-- A run that gets to the return has filled the room before. -/
  full : ∀ m rest, a.RunReaches args m → fetch m.rest = .instruction .ret rest →
    ∃ n, a.RunReaches args n ∧ n.stack.length = a.compile.maxStackDepth ∧
      Reaches a.compile.maxStackDepth args n m

/-- A program runs to a proper end, and if it has a value, its stack is full before. -/
theorem Stores.exists_stops (h : a.Stores t) (hlength : args.length = a.paramCount)
    (hargs : args.length ≤ UInt64.size) :
    ∃ f result, a.RunReaches args f ∧ Stops f result ∧
      ∀ v, result = .ok v → ∃ m, a.RunReaches args m ∧
        m.stack.length = a.compile.maxStackDepth ∧
        Reaches a.compile.maxStackDepth args m f := by
  have hparams : ∀ index ∈ t.params, index < args.length := fun index hindex =>
    hlength ▸ h.params index hindex
  unfold RunReaches
  rw [Machine.start, h.code_compile]
  cases heval : t.eval args with
  | ok v =>
    obtain ⟨m, hbefore, hdepth, hafter⟩ := Machine.reaches_code Instruction.ret.encode 0
      hparams hargs h.room heval
    rw [List.length_nil, Nat.zero_add, ← h.maxStackDepth_compile] at hdepth
    exact ⟨_, _, hbefore.trans hafter, .ret _ v, fun _ _ => ⟨m, hbefore, hdepth, hafter⟩⟩
  | error place =>
    obtain ⟨before, after, kind, rest, l, stack, -, hreaches⟩ :=
      Machine.reaches_code_error Instruction.ret.encode 0 hparams hargs h.room heval
    exact ⟨_, _, hreaches, .zeroDivisor _ _ _ _, fun v hv => by cases hv⟩

theorem Stores.runsSafely (h : a.Stores t) (hlength : args.length = a.paramCount)
    (hargs : args.length ≤ UInt64.size) : a.RunsSafely args := by
  obtain ⟨f, result, hf, hstops, hfull⟩ := h.exists_stops hlength hargs
  have hrun : a.compile.run args = result := by
    rw [run_of_length_eq hlength, hf.run_eq, hstops.run_eq]
  refine ⟨fun m hm => hm.length_le, fun m hm e => hstops.no_fault hf hm e,
    ⟨f, hf, hrun ▸ hstops⟩, fun m rest hm hfetch => ?_⟩
  -- The return has no successor, so the run ends there.
  have hmf : Reaches a.compile.maxStackDepth args m f :=
    hf.before_end (fun _ => hstops.not_next) hm
  have hret : ∀ w, ¬ Machine.Next a.compile.maxStackDepth args m w := by
    intro w hnext
    simp only [Machine.Next, Machine.step, hfetch, Machine.execute, Machine.finish]
      at hnext
    split at hnext <;> cases hnext
  rcases Relation.ReflTransGen.cases_head hmf with rfl | ⟨w, hnext, -⟩
  · cases hstops with
    | ret offset value => exact hfull value rfl
    | zeroDivisor =>
      rw [fetch_encode] at hfetch
      cases hfetch
  · exact absurd hnext (hret w)

variable {source : String} {names : List String} {maxDepth : Nat}

/-- Whatever an accepted source is simplified to, its program announces the room that the
tree needs, and a run of it for the right number of arguments stays in that room, meets no
fault, ends at the return with one value or at a division by zero, and has filled the room
if it gets to the return. -/
theorem stack_use (h : Arena.parse source names maxDepth = .ok a)
    (hnames : names.length ≤ UInt64.size) (k : Nat)
    (hlength : args.length = a.paramCount) :
    (∃ t, (simplify^[k] a).tree? = some t ∧
      (simplify^[k] a).compile.maxStackDepth = t.need) ∧
      (simplify^[k] a).RunsSafely args := by
  obtain ⟨t, ht⟩ := exists_stores_iterate h k
  have hargs : args.length ≤ UInt64.size := by
    obtain ⟨_, -, rfl⟩ := parse_eq_ok_iff.mp h
    rw [hlength]
    exact hnames
  refine ⟨⟨t, ht.tree?_eq, ht.maxStackDepth_compile⟩, ht.runsSafely ?_ hargs⟩
  rw [hlength, paramCount_iterate]

/-- The program of `1-(2-x)` needs room for three values, and fills it for any
argument. -/
theorem stack_use_difference :
    ∃ a, Arena.parse "1-(2-x)" ["x"] 1 = .ok a ∧ a.compile.maxStackDepth = 3 ∧
      [(5 : Int64)].length = a.paramCount ∧ a.RunsSafely [5] := by
  have hparse : Arena.parse "1-(2-x)" ["x"] 1 =
      .ok ⟨#[⟨.literal 2, ⟨3, 4⟩⟩, ⟨.param 0, ⟨5, 6⟩⟩, ⟨.literal 1, ⟨0, 1⟩⟩,
        ⟨.binary .sub 0 1, ⟨3, 6⟩⟩, ⟨.binary .sub 2 3, ⟨0, 6⟩⟩], 1⟩ := by
    decide +kernel
  exact ⟨_, hparse, by decide +kernel, rfl, (stack_use hparse (by decide) 0 rfl).2⟩

end Arena

end Abacus
