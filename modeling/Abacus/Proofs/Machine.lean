import Abacus.Program.Compile
import Abacus.Program.Run
import Abacus.Proofs.Traversal
import Mathlib.Algebra.GroupWithZero.Nat
import Mathlib.Logic.Relation

set_option autoImplicit false

/-!
# Running a compiled tree

The code of a tree is the code of its operands followed by one instruction.  Run on some
stack, it leaves the value of the tree on top of that stack, or it stops at the division
at which `Tree.eval` stops, at the offset of its instruction.  The room that this takes is
what the header announces.

Main statements:

* `Arena.Stores.maxStackDepth_compile`: the header is the depth that the stored tree
  needs.
* `Machine.reaches_code`, `Machine.reaches_code_error`: the code of a tree computes the
  tree.
* `Arena.Stores.run_eq`: a program has the value of the tree that it was compiled from, or
  stops where the tree has none.
-/

namespace Abacus

/-! ## The code of a tree -/

namespace Tree

/-- The instructions of a tree: one for each node, in post-order. -/
def code (t : Tree Place) : List Instruction := t.entries.map (·.2.instruction)

/-- The room on the stack that a tree takes. -/
def need {α : Type} : Tree α → Nat
  | literal _ _ => 1
  | param _ _ => 1
  | negate _ operand => operand.need
  | binary _ _ left right => max left.need (right.need + 1)

@[simp] theorem code_literal (place : Place) (value : Int64) :
    (literal place value).code = [.pushConst value] := rfl

@[simp] theorem code_param (place : Place) (index : Nat) :
    (param place index).code = [.pushParam (Int64.ofNat index)] := rfl

@[simp] theorem code_negate (place : Place) (operand : Tree Place) :
    (negate place operand).code = operand.code ++ [.negate] := by
  simp [code, entries, Arena.Kind.instruction]

@[simp] theorem code_binary (place : Place) (op : Operator) (left right : Tree Place) :
    (binary place op left right).code = left.code ++ right.code ++ [.operator op] := by
  simp [code, entries, Arena.Kind.instruction]

/-- The number of words in front of the instruction of a node in the code of a tree. -/
def offsetOf (t : Tree Place) (place : Place) : Nat :=
  let before := t.entries.takeWhile fun e => e.1.slot != place.slot
  (before.map fun e => e.2.instruction.encode.length).sum

theorem need_pos {α : Type} (t : Tree α) : 0 < t.need := by
  induction t with
  | literal => exact Nat.one_pos
  | param => exact Nat.one_pos
  | negate _ _ ih => exact ih
  | binary => simp only [need]; omega

end Tree

namespace Instruction

/-- The words of a run of instructions. -/
def encodeAll (list : List Instruction) : List Word := list.flatMap encode

@[simp] theorem encodeAll_append (first more : List Instruction) :
    encodeAll (first ++ more) = encodeAll first ++ encodeAll more :=
  List.flatMap_append

@[simp] theorem encodeAll_singleton (i : Instruction) : encodeAll [i] = i.encode := by
  simp [encodeAll]

theorem le_peakDepth (depth : Nat) (list : List Instruction) :
    depth ≤ peakDepth depth list := by
  cases list with
  | nil => exact Nat.le_refl depth
  | cons => exact Nat.le_max_left _ _

/-- The code of a tree takes the room that the tree needs, and leaves one value. -/
theorem peakDepth_code (t : Tree Place) (depth : Nat) (rest : List Instruction) :
    peakDepth depth (t.code ++ rest) =
      max (depth + t.need) (peakDepth (depth + 1) rest) := by
  induction t generalizing depth rest with
  | literal place value =>
    have hle := le_peakDepth (depth + 1) rest
    simp only [Tree.code_literal, List.singleton_append, peakDepth, depthAfter, Tree.need]
    omega
  | param place index =>
    have hle := le_peakDepth (depth + 1) rest
    simp only [Tree.code_param, List.singleton_append, peakDepth, depthAfter, Tree.need]
    omega
  | negate place operand ih =>
    have hle := le_peakDepth (depth + 1) rest
    rw [Tree.code_negate, List.append_assoc, ih]
    simp only [List.singleton_append, peakDepth, depthAfter, Tree.need]
    omega
  | binary place op left right ihl ihr =>
    have hle := le_peakDepth (depth + 1) rest
    have hpos := right.need_pos
    rw [Tree.code_binary, List.append_assoc, List.append_assoc, ihl, ihr]
    simp only [List.singleton_append, peakDepth, depthAfter, Tree.need,
      Nat.add_sub_cancel]
    omega

end Instruction

namespace Arena

/-- The instructions that the nodes in some slots are compiled to. -/
def instructionsAt (a : Arena) (slots : List Nat) : List Instruction :=
  slots.filterMap fun slot => (a.nodes[slot]?).map (·.kind.instruction)

/-- The words that the nodes in some slots are compiled to. -/
def emitted (a : Arena) (slots : List Nat) : List Word :=
  Instruction.encodeAll (a.instructionsAt slots)

variable {a : Arena} {t : Tree Place}

/-- Entries that the table holds are compiled to their instructions. -/
theorem instructionsAt_entries {list : List (Place × Kind)}
    (h : ∀ e ∈ list, a.nodes[e.1.slot]? = some ⟨e.2, e.1.span⟩) :
    a.instructionsAt (list.map (·.1.slot)) = list.map (·.2.instruction) := by
  induction list with
  | nil => rfl
  | cons e rest ih =>
    rw [List.forall_mem_cons] at h
    have hrest := ih h.2
    rw [instructionsAt] at hrest
    simp only [instructionsAt, List.map_cons, List.filterMap_cons, h.1,
      Option.map_some, hrest]

/-- An arena is compiled to the code of the tree that it stores, and a return. -/
theorem Stores.instructions_eq (h : a.Stores t) : a.instructions = t.code ++ [.ret] := by
  have hcode : a.instructionsAt t.slots = t.code := instructionsAt_entries h.holds
  rw [← hcode, ← h.postOrder_eq]
  rfl

theorem Stores.code_compile (h : a.Stores t) :
    a.compile.code = Instruction.encodeAll t.code ++ Instruction.ret.encode := by
  rw [← Instruction.encodeAll_singleton, ← Instruction.encodeAll_append,
    ← h.instructions_eq]
  rfl

/-- The header of a program is the room that its tree needs. -/
theorem Stores.maxStackDepth_compile (h : a.Stores t) :
    a.compile.maxStackDepth = t.need := by
  have hpos := t.need_pos
  show Instruction.peakDepth 0 a.instructions = t.need
  rw [h.instructions_eq, Instruction.peakDepth_code]
  simp only [Instruction.peakDepth, Instruction.depthAfter]
  omega

end Arena

/-! ## Runs of the machine -/

namespace Machine

variable {capacity : Nat} {args : List Int64} {m n : Machine}

/-- One instruction leads from the first state to the second. -/
def Next (capacity : Nat) (args : List Int64) (m n : Machine) : Prop :=
  step capacity args m = .next n

/-- Some instructions lead from the first state to the second. -/
def Reaches (capacity : Nat) (args : List Int64) : Machine → Machine → Prop :=
  Relation.ReflTransGen (Next capacity args)

theorem run_of_next (h : Next capacity args m n) :
    run capacity args m = run capacity args n := by
  rw [run]
  split <;> simp_all [Next]

theorem run_of_result {value : Word} (h : step capacity args m = .result value) :
    run capacity args m = .ok value := by
  rw [run]
  split <;> simp_all

theorem run_of_failure {e : ExecutionError} (h : step capacity args m = .failure e) :
    run capacity args m = .error e := by
  rw [run]
  split <;> simp_all

theorem Reaches.run_eq (h : Reaches capacity args m n) :
    run capacity args m = run capacity args n := by
  induction h with
  | refl => rfl
  | tail _ hnext ih => exact ih.trans (run_of_next hnext)

theorem step_encode (i : Instruction) (rest : List Word) (offset : Nat)
    (stack : List Word) :
    step capacity args ⟨i.encode ++ rest, offset, stack⟩ =
      execute capacity args ⟨i.encode ++ rest, offset, stack⟩ i rest := by
  rw [step, fetch_encode]

/-- The operand word of a position is read back as the position. -/
theorem argument?_ofNat {index : Nat} (hindex : index < args.length)
    (hargs : args.length ≤ UInt64.size) :
    argument? args (Int64.ofNat index) = some (args.getD index 0) := by
  have hword : (Int64.ofNat index).toUInt64.toNat = index := by
    show (UInt64.ofNat index).toNat = index
    exact UInt64.toNat_ofNat_of_lt' (Nat.lt_of_lt_of_le hindex hargs)
  rw [argument?, hword, List.getD_eq_getElem?_getD, List.getElem?_eq_getElem hindex]
  rfl

/-! ### Single instructions -/

section

variable {rest stack : List Word} {offset : Nat}

theorem next_pushConst {value : Word} (hroom : stack.length < capacity) :
    Next capacity args ⟨(Instruction.pushConst value).encode ++ rest, offset, stack⟩
      ⟨rest, offset + 2, value :: stack⟩ := by
  rw [Next, step_encode]
  simp only [execute, push, if_pos hroom]

theorem next_pushParam {index : Nat} (hindex : index < args.length)
    (hargs : args.length ≤ UInt64.size) (hroom : stack.length < capacity) :
    Next capacity args
      ⟨(Instruction.pushParam (Int64.ofNat index)).encode ++ rest, offset, stack⟩
      ⟨rest, offset + 2, args.getD index 0 :: stack⟩ := by
  rw [Next, step_encode]
  simp only [execute, pushArgument, argument?_ofNat hindex hargs, push, if_pos hroom]

theorem next_negate {value : Word} :
    Next capacity args ⟨Instruction.negate.encode ++ rest, offset, value :: stack⟩
      ⟨rest, offset + 1, -value :: stack⟩ := by
  rw [Next, step_encode]
  rfl

theorem next_operator {op : Operator} {l r value : Word}
    (h : op.compute? l r = some value) :
    Next capacity args ⟨(Instruction.operator op).encode ++ rest, offset, r :: l :: stack⟩
      ⟨rest, offset + 1, value :: stack⟩ := by
  rw [Next, step_encode]
  simp only [execute, combineTop, h]

theorem step_zero_divisor {l : Word} :
    step capacity args
        ⟨(Instruction.operator .div).encode ++ rest, offset, 0 :: l :: stack⟩ =
      .failure (.divisionByZero none (some offset)) := by
  rw [step_encode]
  rfl

theorem step_ret {value : Word} :
    step capacity args ⟨Instruction.ret.encode, offset, [value]⟩ = .result value := by
  have hstep : step capacity args ⟨Instruction.ret.encode ++ [], offset, [value]⟩ = _ :=
    step_encode .ret [] offset [value]
  rw [List.append_nil] at hstep
  rw [hstep]
  rfl

end

/-! ### The code of a tree -/

open Instruction (encodeAll)

/-- The code of a tree that has a value leaves it on the stack.  At some moment on the way
there are as many values above those of the start as the tree needs. -/
theorem reaches_code {t : Tree Place} {value : Int64} {stack : List Word}
    (rest : List Word) (offset : Nat) (hparams : ∀ index ∈ t.params, index < args.length)
    (hargs : args.length ≤ UInt64.size) (hroom : stack.length + t.need ≤ capacity)
    (h : t.eval args = .ok value) :
    ∃ m, Reaches capacity args ⟨encodeAll t.code ++ rest, offset, stack⟩ m ∧
      m.stack.length = stack.length + t.need ∧
      Reaches capacity args m ⟨rest, offset + (encodeAll t.code).length,
        value :: stack⟩ := by
  induction t generalizing value stack rest offset with
  | literal place v =>
    obtain rfl := Except.ok.inj h
    rw [Tree.code_literal, Instruction.encodeAll_singleton]
    exact ⟨_, .single (next_pushConst hroom), rfl, .refl⟩
  | param place index =>
    obtain rfl := Except.ok.inj h
    rw [Tree.code_param, Instruction.encodeAll_singleton]
    exact ⟨_, .single (next_pushParam (hparams index List.mem_cons_self) hargs hroom),
      rfl, .refl⟩
  | negate place operand ih =>
    obtain ⟨u, hu, rfl⟩ := Tree.eval_negate_eq_ok.mp h
    rw [Tree.code_negate, Instruction.encodeAll_append, List.append_assoc,
      Instruction.encodeAll_singleton, List.length_append, ← Nat.add_assoc]
    obtain ⟨m, hbefore, hdepth, hafter⟩ := ih _ _ hparams hroom hu
    exact ⟨m, hbefore, hdepth, hafter.tail next_negate⟩
  | binary place op left right ihl ihr =>
    obtain ⟨l, r, hl, hr, hop⟩ := Tree.eval_binary_eq_ok.mp h
    simp only [Tree.params, List.mem_append] at hparams
    simp only [Tree.need] at hroom ⊢
    have hrooml : stack.length + left.need ≤ capacity := by omega
    have hroomr : (l :: stack).length + right.need ≤ capacity := by
      rw [List.length_cons]
      omega
    simp only [Tree.code_binary, Instruction.encodeAll_append,
      Instruction.encodeAll_singleton, List.append_assoc, List.length_append,
      ← Nat.add_assoc]
    obtain ⟨ml, hbeforel, hdepthl, hafterl⟩ :=
      ihl _ _ (fun index hindex => hparams index (Or.inl hindex)) hrooml hl
    obtain ⟨mr, hbeforer, hdepthr, hafterr⟩ :=
      ihr _ _ (fun index hindex => hparams index (Or.inr hindex)) hroomr hr
    rw [List.length_cons] at hdepthr
    -- The deeper of the two operands is where the stack is fullest.
    rcases Nat.le_total left.need (right.need + 1) with hle | hle
    · refine ⟨mr, hbeforel.trans (hafterl.trans hbeforer), ?_,
        hafterr.tail (next_operator hop)⟩
      omega
    · refine ⟨ml, hbeforel, ?_,
        hafterl.trans (hbeforer.trans (hafterr.tail (next_operator hop)))⟩
      omega

/-- The code of a tree that has no value reaches the division that has none. -/
theorem reaches_code_error {t : Tree Place} {place : Place} {stack : List Word}
    (rest : List Word) (offset : Nat) (hparams : ∀ index ∈ t.params, index < args.length)
    (hargs : args.length ≤ UInt64.size) (hroom : stack.length + t.need ≤ capacity)
    (h : t.eval args = .error place) :
    ∃ before after kind rest' l stack', t.entries = before ++ (place, kind) :: after ∧
      Reaches capacity args ⟨encodeAll t.code ++ rest, offset, stack⟩
        ⟨(Instruction.operator .div).encode ++ rest',
          offset + (encodeAll (before.map (·.2.instruction))).length,
          0 :: l :: stack'⟩ := by
  induction t generalizing rest stack offset with
  | literal => cases h
  | param => cases h
  | negate tag operand ih =>
    obtain ⟨before, after, kind, rest', l, stack', hentries, hreaches⟩ :=
      ih _ _ hparams hroom (Tree.eval_negate_eq_error.mp h)
    refine ⟨before, after ++ [(tag, .negate operand.tag.slot)], kind, rest', l,
      stack', ?_, ?_⟩
    · simp [Tree.entries, hentries]
    · rw [Tree.code_negate, Instruction.encodeAll_append, List.append_assoc]
      exact hreaches
  | binary tag op left right ihl ihr =>
    simp only [Tree.params, List.mem_append] at hparams
    have hparamsl := fun index hindex => hparams index (Or.inl hindex)
    have hparamsr := fun index hindex => hparams index (Or.inr hindex)
    simp only [Tree.need] at hroom
    simp only [Tree.code_binary, Instruction.encodeAll_append,
      Instruction.encodeAll_singleton, List.append_assoc]
    have hrooml : stack.length + left.need ≤ capacity := by omega
    have hroomr (l : Word) : (l :: stack).length + right.need ≤ capacity := by
      rw [List.length_cons]
      omega
    rcases Tree.eval_binary_eq_error.mp h with hl | ⟨l, hl, hr⟩ | ⟨l, r, hl, hr, hop, rfl⟩
    · obtain ⟨before, after, kind, rest', x, stack', hentries, hreaches⟩ :=
        ihl _ _ hparamsl hrooml hl
      refine ⟨before,
        after ++ right.entries ++ [(tag, .binary op left.tag.slot right.tag.slot)], kind,
        rest', x, stack', ?_, hreaches⟩
      simp [Tree.entries, hentries]
    · obtain ⟨ml, hbeforel, -, hafterl⟩ := reaches_code _ _ hparamsl hargs hrooml hl
      obtain ⟨before, after, kind, rest', x, stack', hentries, hreaches⟩ :=
        ihr _ _ hparamsr (hroomr l) hr
      refine ⟨left.entries ++ before,
        after ++ [(tag, .binary op left.tag.slot right.tag.slot)], kind, rest', x,
        stack', ?_, ?_⟩
      · simp [Tree.entries, hentries]
      · rw [List.map_append, Instruction.encodeAll_append, List.length_append,
          ← Nat.add_assoc]
        exact hbeforel.trans (hafterl.trans hreaches)
    · obtain ⟨ml, hbeforel, -, hafterl⟩ := reaches_code _ _ hparamsl hargs hrooml hl
      obtain ⟨mr, hbeforer, -, hafterr⟩ := reaches_code _ _ hparamsr hargs (hroomr l) hr
      obtain ⟨rfl, rfl⟩ := Operator.compute?_eq_none_iff.mp hop
      refine ⟨left.entries ++ right.entries, [], _, rest, l, stack, rfl, ?_⟩
      rw [List.map_append, Instruction.encodeAll_append, List.length_append,
        ← Nat.add_assoc]
      exact hbeforel.trans (hafterl.trans (hbeforer.trans hafterr))

end Machine

/-! ## Running a program -/

namespace Arena

variable {a : Arena} {t : Tree Place} {args : List Int64}

theorem run_of_length_eq (h : args.length = a.paramCount) :
    a.compile.run args =
      Machine.run a.compile.maxStackDepth args (Machine.start a.compile.code) := by
  rw [Program.run, checkArgumentCount,
    if_pos (show a.compile.paramCount = args.length from h.symm)]
  rfl

theorem run_of_ne_length (h : args.length ≠ a.paramCount) :
    a.compile.run args = .error (.argumentCount a.paramCount args.length) := by
  rw [Program.run, checkArgumentCount,
    if_neg (show ¬ a.compile.paramCount = args.length from Ne.symm h)]
  rfl

/-- An empty stack has room for the tree. -/
theorem Stores.room (h : a.Stores t) :
    ([] : List Word).length + t.need ≤ a.compile.maxStackDepth := by
  have hdepth := h.maxStackDepth_compile
  rw [List.length_nil]
  omega

/-- A program has the value of the tree that it was compiled from. -/
theorem Stores.run_of_eval_ok {value : Int64} (hstores : a.Stores t)
    (hlength : args.length = a.paramCount) (hargs : args.length ≤ UInt64.size)
    (h : t.eval args = .ok value) : a.compile.run args = .ok value := by
  obtain ⟨m, hbefore, -, hafter⟩ := Machine.reaches_code Instruction.ret.encode 0
    (fun index hindex => hlength ▸ hstores.params index hindex) hargs hstores.room h
  rw [run_of_length_eq hlength, Machine.start, hstores.code_compile, hbefore.run_eq,
    hafter.run_eq]
  exact Machine.run_of_result Machine.step_ret

/-- Where the tree has no value, its program stops at the instruction of the division that
has none. -/
theorem Stores.run_of_eval_error {place : Place} (hstores : a.Stores t)
    (hlength : args.length = a.paramCount) (hargs : args.length ≤ UInt64.size)
    (h : t.eval args = .error place) :
    ∃ before after kind, t.entries = before ++ (place, kind) :: after ∧
      a.compile.run args = .error (.divisionByZero none
        (some (a.emitted (before.map (·.1.slot))).length)) := by
  obtain ⟨before, after, kind, rest, l, stack, hentries, hreaches⟩ :=
    Machine.reaches_code_error Instruction.ret.encode 0
      (fun index hindex => hlength ▸ hstores.params index hindex) hargs hstores.room h
  have hbefore :
      a.instructionsAt (before.map (·.1.slot)) = before.map (·.2.instruction) :=
    instructionsAt_entries fun e he =>
      hstores.holds e (hentries ▸ List.mem_append_left _ he)
  refine ⟨before, after, kind, hentries, ?_⟩
  rw [run_of_length_eq hlength, Machine.start, hstores.code_compile, hreaches.run_eq,
    Machine.run_of_failure Machine.step_zero_divisor, emitted, hbefore, Nat.zero_add]

/-- A program has the value of the tree that it was compiled from, or stops at the
instruction of the division at which that fails. -/
theorem Stores.run_eq (hstores : a.Stores t) (hlength : args.length = a.paramCount)
    (hargs : args.length ≤ UInt64.size) :
    a.compile.run args =
      (t.eval args).mapError fun place =>
        .divisionByZero none (some (t.offsetOf place)) := by
  cases heval : t.eval args with
  | ok v => exact hstores.run_of_eval_ok hlength hargs heval
  | error place =>
    obtain ⟨before, after, kind, hentries, hrun⟩ :=
      hstores.run_of_eval_error hlength hargs heval
    have hbefore : ∀ e ∈ before, (e.1.slot != place.slot) = true := by
      have hnodup := hstores.wellPlaced.nodup
      rw [Tree.slots, hentries, List.map_append, List.map_cons, List.nodup_middle,
        List.nodup_cons] at hnodup
      intro e he
      refine bne_iff_ne.mpr fun heq => hnodup.1 (List.mem_append_left _ ?_)
      exact heq ▸ List.mem_map_of_mem he
    have htake : t.entries.takeWhile (fun e => e.1.slot != place.slot) = before := by
      rw [hentries, List.takeWhile_append_of_pos hbefore,
        List.takeWhile_cons_of_neg (by simp), List.append_nil]
    have hemitted : (a.emitted (before.map (·.1.slot))).length = t.offsetOf place := by
      rw [emitted, instructionsAt_entries fun e he =>
        hstores.holds e (hentries ▸ List.mem_append_left _ he)]
      simp only [Instruction.encodeAll, List.length_flatMap, List.map_map,
        Tree.offsetOf, htake]
      rfl
    rw [hrun, hemitted]
    rfl

end Arena

end Abacus
