import Abacus.Proofs.Renaming
import Abacus.Proofs.Simplify.Settle

set_option autoImplicit false

/-!
# Simplifying a renamed tree

The rules compare parameters with each other, to cancel equal ones, and ask nothing else
of them.  So if different parameters get different positions, a rule does to the renamed
tree what it does to the tree.

Main statement: `Tree.simplify_rename`, simplifying a renamed tree gives the renamed
simple form.
-/

namespace Abacus

namespace Simplify

variable (f : Nat → Nat)

/-- The step with all trees renamed. -/
def Step.rename : Step → Step
  | .done => .done
  | .again t => .again (t.rename f)
  | .settleLeft place op left right =>
    .settleLeft place op (left.rename f) (right.rename f)

/-- The rule does to renamed operands what it does to the operands. -/
def Equivariant (rule : Rule) : Prop :=
  ∀ place op left right, rule place op (left.rename f) (right.rename f) =
    (rule place op left right).map (Step.rename f)

/-! ## Each rule -/

theorem fold_equivariant : Equivariant f fold := by
  intro place op left right
  simp only [fold, Tree.literal?_rename]
  split
  · rename_i l r hl hr
    cases op.compute? l r <;> rfl
  · rfl

theorem dropZero_equivariant : Equivariant f dropZero := by
  intro place op left right
  simp only [dropZero, Tree.literal?_rename, Tree.withTag_rename]
  split
  · split <;> rfl
  · split <;> rfl

theorem dropFactor_equivariant : Equivariant f dropFactor := by
  intro place op left right
  simp only [dropFactor, Tree.literal?_rename, Tree.withTag_rename]
  split
  · rfl
  · split
    · rfl
    · split <;> rfl

theorem dropDivisor_equivariant : Equivariant f dropDivisor := by
  intro place op left right
  simp only [dropDivisor, Tree.literal?_rename]
  split <;> rfl

/-- Equal parameters are those that stay equal. -/
theorem cancel_equivariant (hf : Function.Injective f) : Equivariant f cancel := by
  have hsame (i j : Nat) (value : Int64) (place : Place) :
      (if f i = f j then some (Step.again (.literal place value)) else none) =
        (if i = j then some (Step.again (.literal place value)) else none).map
          (Step.rename f) := by
    by_cases hij : i = j
    · rw [if_pos hij, if_pos (congrArg f hij)]
      rfl
    · rw [if_neg hij, if_neg fun h => hij (hf h)]
      rfl
  intro place op left right
  cases left with
  | param p i =>
    cases right with
    | param q j =>
      cases op with
      | sub => exact hsame i j 0 place
      | div => exact hsame i j 1 place
      | add => rfl
      | mul => rfl
    | literal => cases op <;> rfl
    | negate => cases op <;> rfl
    | binary => cases op <;> rfl
  | literal => cases op <;> rfl
  | negate => cases op <;> rfl
  | binary => cases op <;> rfl

theorem mergeRight_equivariant : Equivariant f mergeRight := by
  intro place op left right
  simp only [mergeRight, Tree.literal?_rename, Tree.tag_rename]
  cases left.literal? with
  | none => rfl
  | some l =>
    cases right with
    | literal => rfl
    | param => rfl
    | negate => rfl
    | binary old inner a b =>
      simp only [Tree.rename, Tree.literal?_rename]
      split
      · cases a.literal? with
        | some v =>
          dsimp only
          cases op.compute? l v <;> rfl
        | none =>
          cases b.literal? with
          | none => rfl
          | some v =>
            dsimp only
            cases (op.compose inner).compute? l v <;> rfl
      · rfl

theorem mergeLeft_equivariant : Equivariant f mergeLeft := by
  intro place op left right
  simp only [mergeLeft, Tree.literal?_rename, Tree.tag_rename]
  cases left with
  | literal => rfl
  | param => rfl
  | negate => rfl
  | binary old inner a b =>
    cases right.literal? with
    | none => rfl
    | some r =>
      cases op.chain? with
      | none => rfl
      | some chain =>
        simp only [Tree.rename, Tree.literal?_rename]
        split
        · cases b.literal? with
          | some v =>
            dsimp only
            cases op.compute? (inner.signed v) r <;> rfl
          | none =>
            cases a.literal? with
            | none => rfl
            | some v =>
              dsimp only
              cases op.compute? v r <;> rfl
        · rfl

theorem rotate_equivariant : Equivariant f rotate := by
  intro place op left right
  cases right with
  | literal => rfl
  | param => rfl
  | negate => rfl
  | binary old inner c d =>
    simp only [rotate, Tree.rename, Tree.tag_rename]
    split <;> rfl

theorem surface_equivariant : Equivariant f surface := by
  intro place op left right
  cases left with
  | literal => rfl
  | param => rfl
  | negate => rfl
  | binary old inner a c =>
    simp only [surface, Tree.rename, Tree.literal?_rename, Tree.tag_rename]
    split
    · split
      · rfl
      · cases right <;> rfl
    · rfl

/-! ## Steps and simple forms -/

theorem firstOf_equivariant {rules : List Rule} (h : ∀ rule ∈ rules, Equivariant f rule) :
    Equivariant f (firstOf rules) := by
  intro place op left right
  induction rules with
  | nil => rfl
  | cons rule rules ih =>
    rw [List.forall_mem_cons] at h
    simp only [firstOf, List.findSome?_cons] at ih ⊢
    rw [h.1]
    cases rule place op left right with
    | none => exact ih h.2
    | some s => rfl

variable {f}

theorem rules_equivariant (hf : Function.Injective f) (op : Operator) :
    ∀ rule ∈ rules op, Equivariant f rule := by
  have hcancel := cancel_equivariant f hf
  have hnil : ∀ rule ∈ ([] : List Rule), Equivariant f rule :=
    fun _ h => absurd h List.not_mem_nil
  cases op with
  | add | sub =>
    simp only [rules, List.forall_mem_cons]
    exact ⟨fold_equivariant f, dropZero_equivariant f, mergeRight_equivariant f,
      mergeLeft_equivariant f, rotate_equivariant f, surface_equivariant f, hcancel, hnil⟩
  | mul =>
    simp only [rules, List.forall_mem_cons]
    exact ⟨fold_equivariant f, dropFactor_equivariant f, mergeRight_equivariant f,
      mergeLeft_equivariant f, rotate_equivariant f, surface_equivariant f, hnil⟩
  | div =>
    simp only [rules, List.forall_mem_cons]
    exact ⟨fold_equivariant f, dropDivisor_equivariant f, hcancel, hnil⟩

/-- A step on a renamed tree is the renamed step. -/
theorem step_rename (hf : Function.Injective f) (t : Tree Place) :
    step (t.rename f) = (step t).rename f := by
  cases t with
  | literal => rfl
  | param => rfl
  | negate place operand =>
    cases operand with
    | literal => rfl
    | param => rfl
    | negate p inner => exact congrArg Step.again (Tree.withTag_rename f inner place)
    | binary => rfl
  | binary place op left right =>
    have hrules := firstOf_equivariant f (rules_equivariant hf op) place op left right
    simp only [step, Tree.rename, hrules]
    cases firstOf (rules op) place op left right <;> rfl

/-- Settling a renamed tree gives the renamed outcome. -/
theorem settle_rename (hf : Function.Injective f) (t : Tree Place) :
    settle (t.rename f) = (settle t).rename f := by
  -- The rewriting of the renamed tree goes along with that of the tree, step by step.
  refine settle_rel (R := fun t v => settle (t.rename f) = v.rename f) ?_ ?_ ?_ t
  · intro t h
    refine settle_of_done ?_
    rw [step_rename hf, h]
    rfl
  · intro t u v h ih
    have hstep : step (t.rename f) = .again (u.rename f) := by
      rw [step_rename hf, h]
      rfl
    rw [settle_of_again hstep, ih]
  · intro t place op left right settled v h ihleft ihwhole
    have hstep : step (t.rename f) =
        .settleLeft place op (left.rename f) (right.rename f) := by
      rw [step_rename hf, h]
      rfl
    rw [settle_of_settleLeft hstep, ihleft]
    exact ihwhole

end Simplify

/-- Simplifying a renamed tree gives the renamed simple form, if different parameters stay
different. -/
theorem Tree.simplify_rename {f : Nat → Nat} (hf : Function.Injective f)
    (t : Tree Place) :
    (t.rename f).simplify = t.simplify.rename f := by
  induction t with
  | literal => rfl
  | param => rfl
  | negate place operand ih =>
    simp only [rename, simplify, ih]
    exact Simplify.settle_rename hf (.negate place operand.simplify)
  | binary place op left right ihl ihr =>
    simp only [rename, simplify, ihl, ihr]
    exact Simplify.settle_rename hf (.binary place op left.simplify right.simplify)

end Abacus
