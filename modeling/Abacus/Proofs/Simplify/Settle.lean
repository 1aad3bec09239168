import Abacus.Tree.Simplify

set_option autoImplicit false

/-!
# Runs of the simplifier

What one step does is said with `Step.Leads`, which speaks about the tree that a step
leads to.  `settle_rel` carries such facts to the rewriting of one node until no rule
applies: it relates the tree at the start to the tree at the end.  Most of them are of one
form, a preorder that passes from operands to the node above them.  `Rewriting` is that
form, and such a fact holds of a tree and its simple form once it holds of single steps.

Main statements:

* `Simplify.settle_rel`: what each kind of step passes on holds of a whole run.
* `Simplify.Rewriting.simplify`: what holds of each step holds of a tree and its simple
  form.
-/

namespace Abacus

namespace Simplify

/-- The tree that a step leads to has a property. -/
def Step.Leads (P : Tree Place → Prop) : Step → Prop
  | .done => True
  | .again u => P u
  | .settleLeft place op left right => P (.binary place op left right)

theorem settle_of_done {t : Tree Place} (h : step t = .done) : settle t = t := by
  rw [settle, settleSized]
  split <;> simp_all

theorem settle_of_again {t u : Tree Place} (h : step t = .again u) :
    settle t = settle u := by
  rw [settle, settleSized]
  split
  · simp_all
  · rename_i u' h'
    obtain rfl := Step.again.inj (h.symm.trans h')
    rfl
  · simp_all

theorem settle_of_settleLeft {t left right : Tree Place} {place : Place} {op : Operator}
    (h : step t = .settleLeft place op left right) :
    settle t = settle (.binary place op (settle left) right) := by
  rw [settle, settleSized]
  split
  · simp_all
  · simp_all
  · rename_i place' op' left' right' h'
    obtain ⟨rfl, rfl, rfl, rfl⟩ := Step.settleLeft.inj (h.symm.trans h')
    rfl

/-- A relation between a tree and what settling makes of it holds if it holds where no
rule applies and is passed on backwards by each kind of step. -/
theorem settle_rel {R : Tree Place → Tree Place → Prop}
    (done : ∀ t, step t = .done → R t t)
    (again : ∀ t u v, step t = .again u → R u v → R t v)
    (settleLeft : ∀ t place op left right settled v,
      step t = .settleLeft place op left right → R left settled →
      R (.binary place op settled right) v → R t v)
    (t : Tree Place) : R t (settle t) := by
  induction t using settleSized.induct with
  | case1 t h =>
    rw [settle_of_done h]
    exact done t h
  | case2 t u h _ _ ih =>
    rw [settle_of_again h]
    exact again t u _ h ih
  | case3 t place op left right h _ _ _ _ settled _ ihleft _ ihwhole =>
    rw [settle_of_settleLeft h]
    exact settleLeft t place op left right _ _ h ihleft ihwhole

/-- A relation between the trees with a property and their rewritten forms, which holds of
every step. -/
structure Rewriting (P : Tree Place → Prop) (R : Tree Place → Tree Place → Prop) :
    Prop where
  refl : ∀ t, P t → R t t
  trans : ∀ t u v, R t u → R u v → R t v
  /-- A rewritten form has the property. -/
  keeps : ∀ t u, P t → R t u → P u
  operand : ∀ place t, P (.negate place t) → P t
  left : ∀ place op l r, P (.binary place op l r) → P l
  right : ∀ place op l r, P (.binary place op l r) → P r
  negate :
    ∀ place t u, P (.negate place t) → R t u → R (.negate place t) (.negate place u)
  binary : ∀ place op l l' r r', P (.binary place op l r) → R l l' → R r r' →
    R (.binary place op l r) (.binary place op l' r')
  step : ∀ t, P t → (Simplify.step t).Leads (R t)

namespace Rewriting

variable {P : Tree Place → Prop} {R : Tree Place → Tree Place → Prop}

theorem settle (h : Rewriting P R) {t : Tree Place} : P t → R t (Simplify.settle t) := by
  apply settle_rel (R := fun t v => P t → R t v)
  · exact fun t _ => h.refl t
  · intro t u v hstep huv ht
    have htu := h.step t ht
    rw [hstep] at htu
    exact h.trans _ _ _ htu (huv (h.keeps t u ht htu))
  · intro t place op left right settled v hstep hleft hwhole ht
    have htu := h.step t ht
    rw [hstep] at htu
    have hu := h.keeps _ _ ht htu
    have hsettled := h.trans _ _ _ htu (h.binary place op left settled right right hu
      (hleft (h.left _ _ _ _ hu)) (h.refl right (h.right _ _ _ _ hu)))
    exact h.trans _ _ _ hsettled (hwhole (h.keeps _ _ ht hsettled))

/-- A tree and its simple form are related. -/
theorem simplify (h : Rewriting P R) {t : Tree Place} (ht : P t) : R t t.simplify := by
  induction t with
  | literal => exact h.refl _ ht
  | param => exact h.refl _ ht
  | negate place operand ih =>
    have hoperand := h.negate place _ _ ht (ih (h.operand _ _ ht))
    exact h.trans _ _ _ hoperand (h.settle (h.keeps _ _ ht hoperand))
  | binary place op left right ihl ihr =>
    have hoperands :=
      h.binary place op _ _ _ _ ht (ihl (h.left _ _ _ _ ht)) (ihr (h.right _ _ _ _ ht))
    exact h.trans _ _ _ hoperands (h.settle (h.keeps _ _ ht hoperands))

end Rewriting

end Simplify

end Abacus
