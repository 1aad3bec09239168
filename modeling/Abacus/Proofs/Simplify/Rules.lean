import Abacus.Proofs.Simplify.Settle

set_option autoImplicit false

/-!
# What a step of the simplifier can do

`Rewrites t s` says that `s` is an outcome of a rule on `t`, with one constructor for each
way in which a rule applies.  It leaves out the order in which the rules are tried.
`rewrites_of_step` is the inversion of `step`: whatever a step is shown to keep, it is
enough to look at these outcomes.
-/

namespace Abacus.Simplify

open Abacus.Tree

/-- The outcomes of the rules. -/
inductive Rewrites : Tree Place → Step → Prop
  | negateLiteral (place p : Place) (v : Int64) :
    Rewrites (.negate place (.literal p v)) (.again (.literal place (-v)))
  | doubleNegation (place p : Place) (t : Tree Place) :
    Rewrites (.negate place (.negate p t)) (.again (t.withTag place))
  | fold (place p q : Place) (op : Operator) (l r v : Int64)
    (h : op.compute? l r = some v) :
    Rewrites (.binary place op (.literal p l) (.literal q r)) (.again (.literal place v))
  | zeroMinus (place p : Place) (right : Tree Place) :
    Rewrites (.binary place .sub (.literal p 0) right) (.again (.negate place right))
  | zeroPlus (place p : Place) (right : Tree Place) :
    Rewrites (.binary place .add (.literal p 0) right) (.again (right.withTag place))
  | plusZero (place q : Place) (op : Operator) (left : Tree Place)
    (h : op.isAdditive = true) :
    Rewrites (.binary place op left (.literal q 0)) (.again (left.withTag place))
  | zeroTimes (place p : Place) (right : Tree Place) :
    Rewrites (.binary place .mul (.literal p 0) right) (.again (.literal place 0))
  | timesZero (place q : Place) (left : Tree Place) :
    Rewrites (.binary place .mul left (.literal q 0)) (.again (.literal place 0))
  | timesOne (place q : Place) (left : Tree Place) :
    Rewrites (.binary place .mul left (.literal q 1)) (.again (left.withTag place))
  | oneTimes (place p : Place) (right : Tree Place) :
    Rewrites (.binary place .mul (.literal p 1) right) (.again (right.withTag place))
  | zeroOver (place p : Place) (right : Tree Place) :
    Rewrites (.binary place .div (.literal p 0) right) (.again (.literal place 0))
  | selfMinus (place p q : Place) (i : Nat) :
    Rewrites (.binary place .sub (.param p i) (.param q i)) (.again (.literal place 0))
  | selfOver (place p q : Place) (i : Nat) :
    Rewrites (.binary place .div (.param p i) (.param q i)) (.again (.literal place 1))
  | mergeRightInner (place p old q : Place) (op inner : Operator) (l a v : Int64)
    (b : Tree Place)
      (hchain : op.sameChain inner = true) (h : op.compute? l a = some v) :
    Rewrites (.binary place op (.literal p l) (.binary old inner (.literal q a) b))
      (.again (.binary place (op.compose inner) (.literal p v) b))
  | mergeRightOuter (place p old q : Place) (op inner : Operator) (l b v : Int64)
    (a : Tree Place)
      (hchain : op.sameChain inner = true)
      (h : (op.compose inner).compute? l b = some v) :
    Rewrites (.binary place op (.literal p l) (.binary old inner a (.literal q b)))
      (.again (.binary place op (.literal p v) a))
  | mergeLeftOuter (place old q r : Place) (op inner chain : Operator) (b c v : Int64)
      (a : Tree Place) (hchain : op.chain? = some chain)
      (hsame : op.sameChain inner = true) (h : op.compute? (inner.signed b) c = some v) :
    Rewrites (.binary place op (.binary old inner a (.literal q b)) (.literal r c))
      (.again (.binary place chain a (.literal r v)))
  | mergeLeftInner (place old q r : Place) (op inner : Operator) (a c v : Int64)
    (b : Tree Place)
      (hsame : op.sameChain inner = true) (h : op.compute? a c = some v) :
    Rewrites (.binary place op (.binary old inner (.literal q a) b) (.literal r c))
      (.again (.binary place inner (.literal r v) b))
  | rotate (place old : Place) (op inner : Operator) (left c d : Tree Place)
      (hsame : op.sameChain inner = true) (hslot : left.tag.slot < old.slot) :
    Rewrites (.binary place op left (.binary old inner c d))
      (.settleLeft place (op.compose inner)
        (.binary ⟨old.slot, Span.combine left.tag.span c.tag.span⟩ op left c) d)
  | surface (place old q : Place) (op inner : Operator) (a right : Tree Place) (c : Int64)
      (hsame : op.sameChain inner = true) (hright : right.literal? = none)
      (hslot : right.tag.slot < old.slot) :
    Rewrites (.binary place op (.binary old inner a (.literal q c)) right)
      (.settleLeft place inner
        (.binary ⟨old.slot, Span.combine a.tag.span right.tag.span⟩ op a right)
        (.literal q c))
  | surfaceParam (place old q leaf : Place) (op inner : Operator) (a : Tree Place)
    (c : Int64)
      (i : Nat) (hsame : op.sameChain inner = true) (hslot : old.slot ≤ leaf.slot) :
    Rewrites (.binary place op (.binary old inner a (.literal q c)) (.param leaf i))
      (.settleLeft place inner
        (.binary ⟨leaf.slot, Span.combine a.tag.span leaf.span⟩ op a
          (.param ⟨old.slot, leaf.span⟩ i)) (.literal q c))

variable {place : Place} {op : Operator} {left right : Tree Place} {s : Step}

/-! ## Each rule -/

theorem rewrites_of_fold (h : fold place op left right = some s) :
    Rewrites (.binary place op left right) s := by
  unfold Simplify.fold at h
  split at h
  · rename_i l r hl hr
    obtain ⟨v, hv, rfl⟩ := Option.map_eq_some_iff.mp h
    rw [literal?_eq_some hl, literal?_eq_some hr]
    exact .fold _ _ _ _ _ _ _ hv
  · cases h

theorem rewrites_of_dropZero (hop : op.isAdditive = true)
    (h : dropZero place op left right = some s) :
    Rewrites (.binary place op left right) s := by
  unfold dropZero at h
  split at h
  · rename_i hl
    cases h
    rw [literal?_eq_some hl]
    split
    · rename_i hsub
      subst hsub
      exact .zeroMinus _ _ _
    · rename_i hsub
      have hadd : op = .add := by cases op <;> simp_all [Operator.isAdditive]
      subst hadd
      exact .zeroPlus _ _ _
  · split at h
    · rename_i hr
      cases h
      rw [literal?_eq_some hr]
      exact .plusZero _ _ _ _ hop
    · cases h

theorem rewrites_of_dropFactor (h : dropFactor place .mul left right = some s) :
    Rewrites (.binary place .mul left right) s := by
  unfold dropFactor at h
  split at h
  · rename_i hzero
    cases h
    rcases hzero with hl | hr
    · rw [literal?_eq_some hl]
      exact .zeroTimes _ _ _
    · rw [literal?_eq_some hr]
      exact .timesZero _ _ _
  · split at h
    · rename_i hr
      cases h
      rw [literal?_eq_some hr]
      exact .timesOne _ _ _
    · split at h
      · rename_i hl
        cases h
        rw [literal?_eq_some hl]
        exact .oneTimes _ _ _
      · cases h

theorem rewrites_of_dropDivisor (h : dropDivisor place .div left right = some s) :
    Rewrites (.binary place .div left right) s := by
  unfold dropDivisor at h
  split at h
  · rename_i hl
    cases h
    rw [literal?_eq_some hl]
    exact .zeroOver _ _ _
  · cases h

theorem rewrites_of_cancel (h : cancel place op left right = some s) :
    Rewrites (.binary place op left right) s := by
  unfold cancel at h
  split at h
  · split at h
    · rename_i hij
      cases h
      subst hij
      exact .selfMinus _ _ _ _
    · cases h
  · split at h
    · rename_i hij
      cases h
      subst hij
      exact .selfOver _ _ _ _
    · cases h
  · cases h

theorem rewrites_of_mergeRight (h : mergeRight place op left right = some s) :
    Rewrites (.binary place op left right) s := by
  unfold mergeRight at h
  split at h
  · rename_i l old inner a b hl
    split at h
    · rename_i hchain
      rw [literal?_eq_some hl]
      split at h
      · rename_i ha
        obtain ⟨v, hv, rfl⟩ := Option.map_eq_some_iff.mp h
        rw [literal?_eq_some ha]
        exact .mergeRightInner _ _ _ _ _ _ _ _ _ _ hchain hv
      · rename_i hb
        obtain ⟨v, hv, rfl⟩ := Option.map_eq_some_iff.mp h
        rw [literal?_eq_some hb]
        exact .mergeRightOuter _ _ _ _ _ _ _ _ _ _ hchain hv
      · cases h
    · cases h
  · cases h

theorem rewrites_of_mergeLeft (h : mergeLeft place op left right = some s) :
    Rewrites (.binary place op left right) s := by
  unfold mergeLeft at h
  split at h
  · rename_i old inner a b r chain hr hchain
    split at h
    · rename_i hsame
      rw [literal?_eq_some hr]
      split at h
      · rename_i hb
        obtain ⟨v, hv, rfl⟩ := Option.map_eq_some_iff.mp h
        rw [literal?_eq_some hb]
        exact .mergeLeftOuter _ _ _ _ _ _ _ _ _ _ _ hchain hsame hv
      · rename_i ha
        obtain ⟨v, hv, rfl⟩ := Option.map_eq_some_iff.mp h
        rw [literal?_eq_some ha]
        exact .mergeLeftInner _ _ _ _ _ _ _ _ _ _ hsame hv
      · cases h
    · cases h
  · cases h

theorem rewrites_of_rotate (h : rotate place op left right = some s) :
    Rewrites (.binary place op left right) s := by
  unfold Simplify.rotate at h
  split at h
  · split at h
    · rename_i hcond
      cases h
      exact .rotate _ _ _ _ _ _ _ hcond.1 hcond.2
    · cases h
  · cases h

theorem rewrites_of_surface (h : surface place op left right = some s) :
    Rewrites (.binary place op left right) s := by
  unfold Simplify.surface at h
  split at h
  · rename_i old inner a c
    split at h
    · rename_i hcond
      obtain ⟨hsame, hright, hc⟩ := hcond
      obtain ⟨v, hv⟩ := Option.isSome_iff_exists.mp hc
      rw [literal?_eq_some hv] at h ⊢
      split at h
      · rename_i hslot
        cases h
        exact .surface _ _ _ _ _ _ _ _ hsame hright hslot
      · rename_i hslot
        split at h
        · cases h
          exact .surfaceParam _ _ _ _ _ _ _ _ _ hsame (Nat.le_of_not_lt hslot)
        · cases h
    · cases h
  · cases h

/-! ## The step -/

theorem rewrites_of_rules (h : firstOf (rules op) place op left right = some s) :
    Rewrites (.binary place op left right) s := by
  obtain ⟨rule, hrule, hs⟩ := List.exists_of_findSome?_eq_some h
  cases op with
  | add | sub =>
    simp only [rules, List.mem_cons, List.not_mem_nil, or_false] at hrule
    rcases hrule with rfl | rfl | rfl | rfl | rfl | rfl | rfl
    · exact rewrites_of_fold hs
    · exact rewrites_of_dropZero rfl hs
    · exact rewrites_of_mergeRight hs
    · exact rewrites_of_mergeLeft hs
    · exact rewrites_of_rotate hs
    · exact rewrites_of_surface hs
    · exact rewrites_of_cancel hs
  | mul =>
    simp only [rules, List.mem_cons, List.not_mem_nil, or_false] at hrule
    rcases hrule with rfl | rfl | rfl | rfl | rfl | rfl
    · exact rewrites_of_fold hs
    · exact rewrites_of_dropFactor hs
    · exact rewrites_of_mergeRight hs
    · exact rewrites_of_mergeLeft hs
    · exact rewrites_of_rotate hs
    · exact rewrites_of_surface hs
  | div =>
    simp only [rules, List.mem_cons, List.not_mem_nil, or_false] at hrule
    rcases hrule with rfl | rfl | rfl
    · exact rewrites_of_fold hs
    · exact rewrites_of_dropDivisor hs
    · exact rewrites_of_cancel hs

/-- A step does nothing or has the outcome of a rule. -/
theorem rewrites_of_step (t : Tree Place) : step t = .done ∨ Rewrites t (step t) := by
  cases t with
  | literal => exact Or.inl rfl
  | param => exact Or.inl rfl
  | negate place operand =>
    cases operand with
    | literal p v => exact Or.inr (.negateLiteral _ _ _)
    | negate p t => exact Or.inr (.doubleNegation _ _ _)
    | param => exact Or.inl rfl
    | binary => exact Or.inl rfl
  | binary place op left right =>
    simp only [step]
    cases h : firstOf (rules op) place op left right with
    | none => exact Or.inl rfl
    | some s => exact Or.inr (rewrites_of_rules h)

/-- What holds if nothing is done and holds of every outcome of a rule, holds of a
step. -/
theorem step_of_rewrites {Q : Step → Prop} {t : Tree Place} (hdone : Q .done)
    (h : ∀ s, Rewrites t s → Q s) : Q (step t) := by
  rcases rewrites_of_step t with hstep | hstep
  · rwa [hstep]
  · exact h _ hstep

end Abacus.Simplify
