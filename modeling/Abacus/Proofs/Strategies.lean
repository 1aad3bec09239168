import Mathlib.Logic.Function.Iterate
import Abacus.Proofs.Language
import Abacus.Proofs.Machine
import Abacus.Proofs.Simplify.Loop
import Abacus.Proofs.Simplify.Value

set_option autoImplicit false

/-!
# The strategies agree

An accepted source can be simplified any number of times, and whatever comes of it can be
walked or compiled and run.  Simplifying once more keeps a value that there is.  Walking
an arena and running its program have the same outcome, down to the node at which both
stop for a zero divisor.

Main statements:

* `Arena.evaluate_simplify`: simplifying keeps values.
* `Arena.run_compile`: walking an arena and running its program have the same outcome.
-/

namespace Abacus.Arena

variable {source : String} {names : List String} {maxDepth : Nat} {a : Arena}
  {t : Tree Place}
  {args : List Int64}

/-! ## Any number of simplifications -/

theorem Stores.iterate (h : a.Stores t) (k : Nat) :
    (Arena.simplify^[k] a).Stores (Tree.simplify^[k] t) := by
  induction k with
  | zero => exact h
  | succ k ih =>
    rw [Function.iterate_succ_apply', Function.iterate_succ_apply']
    exact ih.simplify

theorem paramCount_iterate (a : Arena) (k : Nat) :
    (simplify^[k] a).paramCount = a.paramCount := by
  induction k with
  | zero => rfl
  | succ k ih => rw [Function.iterate_succ_apply', paramCount_simplify, ih]

/-- Whatever an accepted source is simplified to stores a tree. -/
theorem exists_stores_iterate (h : Arena.parse source names maxDepth = .ok a) (k : Nat) :
    ∃ t : Tree Place, (simplify^[k] a).Stores t := by
  obtain ⟨t, ht⟩ := stores_of_parse h
  exact ⟨_, ht.iterate k⟩

/-- An arena has a value exactly if the number of arguments is right and the stored tree
has it. -/
theorem Stores.evaluate_eq_ok_iff (h : a.Stores t) {v : Int64} :
    a.evaluate args = .ok v ↔ args.length = a.paramCount ∧ t.eval args = .ok v := by
  constructor
  · intro hv
    by_cases hlength : args.length = a.paramCount
    · refine ⟨hlength, ?_⟩
      rw [h.evaluate_eq hlength] at hv
      cases heval : t.eval args with
      | ok u =>
        rw [heval] at hv
        exact congrArg _ (Except.ok.inj hv)
      | error place =>
        rw [heval] at hv
        cases hv
    · rw [evaluate_of_ne_length hlength] at hv
      cases hv
  · rintro ⟨hlength, heval⟩
    exact h.evaluate_of_eval_ok hlength heval

/-- Simplifying an accepted source once more, after any number of simplifications, keeps a
value that it has. -/
theorem evaluate_simplify {v : Int64} (h : Arena.parse source names maxDepth = .ok a)
    (k : Nat) (hv : (simplify^[k] a).evaluate args = .ok v) :
    (simplify^[k + 1] a).evaluate args = .ok v := by
  obtain ⟨t, ht⟩ := exists_stores_iterate h k
  obtain ⟨hlength, heval⟩ := ht.evaluate_eq_ok_iff.mp hv
  rw [Function.iterate_succ_apply']
  refine ht.simplify.evaluate_eq_ok_iff.mpr ⟨?_, t.simplify_refines args v heval⟩
  rw [hlength, paramCount_simplify]

/-- Both additions of `(x+1)+2` become one, and the value for `5` stays. -/
theorem evaluate_simplify_additions :
    ∃ a, Arena.parse "(x+1)+2" ["x"] 1 = .ok a ∧ a.evaluate [5] = .ok 8 ∧
      (simplify^[1] a).evaluate [5] = .ok 8 := by
  have hparse : Arena.parse "(x+1)+2" ["x"] 1 =
      .ok ⟨#[⟨.param 0, ⟨1, 2⟩⟩, ⟨.literal 1, ⟨3, 4⟩⟩, ⟨.binary .add 0 1, ⟨1, 4⟩⟩,
        ⟨.literal 2, ⟨6, 7⟩⟩, ⟨.binary .add 2 3, ⟨1, 7⟩⟩], 1⟩ := by
    decide +kernel
  refine ⟨_, hparse, ?_, evaluate_simplify hparse 0 ?_⟩ <;> decide +kernel

/-! ## Walking and running -/

/-- The walk over an arena computes the slots `before` and then stops at a division by
zero. -/
structure StopsAt (a : Arena) (args : List Int64) (before : List Nat) (slot : Nat)
    (span : Span) : Prop where
  /-- The slots are those that the walk visits first. -/
  visited : ∃ after, a.postOrder = before ++ slot :: after
  /-- The slot holds a division with this span. -/
  division : ∃ left right, a.nodes[slot]? = some ⟨.binary .div left right, span⟩
  /-- All the slots before it can be computed, and this one cannot. -/
  stops : ∃ results, a.computeAll args before (Array.replicate a.size 0) = .ok results ∧
    a.computeSlot args results slot = .error (.divisionByZero (some span) none)

/-- The code of a program, cut at the instruction of a node. -/
theorem code_compile_eq {before after : List Nat} {slot : Nat} {node : Node}
    (hvisited : a.postOrder = before ++ slot :: after)
    (hnode : a.nodes[slot]? = some node) :
    a.compile.code =
      a.emitted before ++ (node.kind.instruction.encode ++
        (a.emitted after ++ Instruction.ret.encode)) := by
  have hcode : a.compile.code =
      Instruction.encodeAll (a.instructionsAt a.postOrder ++ [.ret]) := rfl
  have hcut : a.instructionsAt (before ++ slot :: after) =
      a.instructionsAt before ++ ([node.kind.instruction] ++ a.instructionsAt after) := by
    simp [instructionsAt, hnode]
  rw [hcode, hvisited, hcut]
  simp only [Instruction.encodeAll_append, Instruction.encodeAll_singleton,
    List.append_assoc, emitted]

/-- Where the stored tree has no value, walk and run stop at the same division. -/
theorem Stores.stopsAt_of_eval_error {place : Place} (hstores : a.Stores t)
    (hlength : args.length = a.paramCount) (hargs : args.length ≤ UInt64.size)
    (h : t.eval args = .error place) :
    ∃ before, a.StopsAt args before place.slot place.span ∧
      a.evaluate args = .error (.divisionByZero (some place.span) none) ∧
      a.compile.run args =
        .error (.divisionByZero none (some (a.emitted before).length)) := by
  obtain ⟨hevaluate, before, after, left, right, results, hentries, hrun, hstop⟩ :=
    hstores.evaluate_of_eval_error hlength h
  obtain ⟨before', after', kind, hentries', hprogram⟩ :=
    hstores.run_of_eval_error hlength hargs h
  have hslots :
      t.slots = before.map (·.1.slot) ++ place.slot :: after.map (·.1.slot) := by
    rw [Tree.slots, hentries, List.map_append, List.map_cons]
  have hslots' :
      t.slots = before'.map (·.1.slot) ++ place.slot :: after'.map (·.1.slot) := by
    rw [Tree.slots, hentries', List.map_append, List.map_cons]
  -- No slot is visited twice, so the walk and the run have the same slots behind them.
  have hnotMem := hstores.wellPlaced.nodup
  rw [hslots, List.nodup_middle, List.nodup_cons, List.mem_append, not_or] at hnotMem
  obtain ⟨⟨hbefore, hafter⟩, -⟩ := hnotMem
  obtain ⟨hsame, -, -⟩ :=
    (List.append_cons_inj_of_notMem hbefore hafter).mp (hslots.symm.trans hslots')
  rw [← hsame] at hprogram
  refine ⟨before.map (·.1.slot),
    ⟨⟨_, hstores.postOrder_eq.trans hslots⟩, ⟨left, right, ?_⟩, results, hrun, hstop⟩,
    hevaluate, hprogram⟩
  exact hstores.holds (place, .binary .div left right) (by simp [hentries])

/-- Walking whatever an accepted source is simplified to, and running the program that it
is compiled to, have the same outcome: the same value, the same refusal of a number of
arguments, or a division by zero at the same node, whose instruction stands in the code
where the machine stops.  The positions of the parameters have to fit in a word, as those
of any list in memory do. -/
theorem run_compile (h : Arena.parse source names maxDepth = .ok a)
    (hnames : names.length ≤ UInt64.size) (k : Nat) (args : List Int64) :
    (∃ v, (simplify^[k] a).evaluate args = .ok v ∧
      (simplify^[k] a).compile.run args = .ok v) ∨
    (∃ expected actual,
      (simplify^[k] a).evaluate args = .error (.argumentCount expected actual) ∧
      (simplify^[k] a).compile.run args = .error (.argumentCount expected actual)) ∨
    ∃ before slot span after, (simplify^[k] a).StopsAt args before slot span ∧
      (simplify^[k] a).evaluate args = .error (.divisionByZero (some span) none) ∧
      (simplify^[k] a).compile.code =
        (simplify^[k] a).emitted before ++ Opcode.div.word :: after ∧
      (simplify^[k] a).compile.run args =
        .error (.divisionByZero none
          (some ((simplify^[k] a).emitted before).length)) := by
  obtain ⟨t, ht⟩ := exists_stores_iterate h k
  by_cases hlength : args.length = (simplify^[k] a).paramCount
  · have hargs : args.length ≤ UInt64.size := by
      obtain ⟨_, -, rfl⟩ := parse_eq_ok_iff.mp h
      rw [hlength, paramCount_iterate]
      exact hnames
    cases heval : t.eval args with
    | ok v =>
      exact Or.inl ⟨v, ht.evaluate_of_eval_ok hlength heval,
        ht.run_of_eval_ok hlength hargs heval⟩
    | error place =>
      obtain ⟨before, hstop, hevaluate, hrun⟩ :=
        ht.stopsAt_of_eval_error hlength hargs heval
      obtain ⟨after, hafter⟩ := hstop.visited
      obtain ⟨left, right, hnode⟩ := hstop.division
      exact Or.inr (Or.inr ⟨before, place.slot, place.span, _, hstop, hevaluate,
        code_compile_eq hafter hnode, hrun⟩)
  · exact Or.inr (Or.inl ⟨_, _, evaluate_of_ne_length hlength, run_of_ne_length hlength⟩)

/-- For `2`, walk and run of `6/(x-2)` stop at the same division. -/
theorem run_compile_zero_divisor :
    ∃ a, Arena.parse "6/(x-2)" ["x"] 1 = .ok a ∧
      ∃ before slot after, a.StopsAt [2] before slot ⟨0, 6⟩ ∧
        a.compile.code = a.emitted before ++ Opcode.div.word :: after ∧
        a.compile.run [2] =
          .error (.divisionByZero none (some (a.emitted before).length)) := by
  have hparse : Arena.parse "6/(x-2)" ["x"] 1 =
      .ok ⟨#[⟨.param 0, ⟨3, 4⟩⟩, ⟨.literal 2, ⟨5, 6⟩⟩, ⟨.literal 6, ⟨0, 1⟩⟩,
        ⟨.binary .sub 0 1, ⟨3, 6⟩⟩, ⟨.binary .div 2 3, ⟨0, 6⟩⟩], 1⟩ := by
    decide +kernel
  obtain ⟨a, ha⟩ : ∃ a, Arena.parse "6/(x-2)" ["x"] 1 = .ok a ∧
      a.evaluate [2] = .error (.divisionByZero (some ⟨0, 6⟩) none) :=
    ⟨_, hparse, by decide +kernel⟩
  refine ⟨a, ha.1, ?_⟩
  rcases run_compile ha.1 (by decide) 0 [2] with
    ⟨v, hv, -⟩ | ⟨expected, actual, hcount, -⟩ |
    ⟨before, slot, span, after, hstop, hspan, hcode, hrun⟩
  · cases ha.2.symm.trans hv
  · cases ha.2.symm.trans hcount
  · cases ha.2.symm.trans hspan
    exact ⟨before, slot, after, hstop, hcode, hrun⟩

end Abacus.Arena
