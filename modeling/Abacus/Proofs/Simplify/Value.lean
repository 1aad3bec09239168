import Abacus.Proofs.Meaning
import Abacus.Proofs.Regrouping
import Abacus.Proofs.Simplify.Rules

set_option autoImplicit false

/-!
# Simplifying keeps values

Wherever a tree has a value, its simple form has the same one.  Rules may drop operands,
so the converse fails: a division by zero can disappear.
-/

namespace Abacus

namespace Simplify

open Abacus.Tree

/-- A tree whose root was given another place computes the same. -/
theorem refines_withTag {t u : Tree Place} (place : Place) (h : t.Refines u) :
    t.Refines (u.withTag place) :=
  fun args v hv => eval_withTag_eq_ok.mpr (h args v hv)

/-- What a binary node refines to is decided by the values of its operands. -/
theorem refines_of_binary {place : Place} {op : Operator} {left right u : Tree Place}
    (h : ∀ args x y v, left.eval args = .ok x → right.eval args = .ok y →
      op.compute? x y = some v → u.eval args = .ok v) :
    (Tree.binary place op left right).Refines u := by
  intro args v hv
  obtain ⟨x, y, hx, hy, hxy⟩ := eval_binary_eq_ok.mp hv
  exact h args x y v hx hy hxy

/-! ## Rules that compute or drop an operand -/

theorem refines_negateLiteral (place p : Place) (v : Int64) :
    (Tree.negate place (.literal p v)).Refines (.literal place (-v)) := by
  intro args w hw
  obtain ⟨u, hu, rfl⟩ := eval_negate_eq_ok.mp hw
  obtain rfl := Except.ok.inj hu
  rfl

theorem refines_doubleNegation (place p : Place) (t : Tree Place) :
    (Tree.negate place (.negate p t)).Refines t := by
  intro args w hw
  obtain ⟨u, hu, rfl⟩ := eval_negate_eq_ok.mp hw
  obtain ⟨x, hx, rfl⟩ := eval_negate_eq_ok.mp hu
  rw [hx, Int64.neg_neg]

theorem refines_fold {place p q : Place} {op : Operator} {l r v : Int64}
    (h : op.compute? l r = some v) :
    (Tree.binary place op (.literal p l) (.literal q r)).Refines (.literal place v) := by
  apply refines_of_binary
  intro args x y w hx hy hxy
  obtain rfl := Except.ok.inj hx
  obtain rfl := Except.ok.inj hy
  rw [eval_literal, Option.some.inj (h.symm.trans hxy)]

/-- A left literal may be dropped if the operator gives back the right operand. -/
theorem refines_right {place p : Place} {op : Operator} {l : Int64} {right : Tree Place}
    (h : ∀ y v, op.compute? l y = some v → y = v) :
    (Tree.binary place op (.literal p l) right).Refines right := by
  apply refines_of_binary
  intro args x y v hx hy hxy
  obtain rfl := Except.ok.inj hx
  rw [hy, h y v hxy]

/-- A right literal may be dropped if the operator gives back the left operand. -/
theorem refines_left {place q : Place} {op : Operator} {r : Int64} {left : Tree Place}
    (h : ∀ x v, op.compute? x r = some v → x = v) :
    (Tree.binary place op left (.literal q r)).Refines left := by
  apply refines_of_binary
  intro args x y v hx hy hxy
  obtain rfl := Except.ok.inj hy
  rw [hx, h x v hxy]

/-- An operation with a left literal is a literal if its value does not depend on the
right operand. -/
theorem refines_constant_left {place p : Place} {op : Operator} {l c : Int64}
    {right : Tree Place} (h : ∀ y v, op.compute? l y = some v → c = v) :
    (Tree.binary place op (.literal p l) right).Refines (.literal place c) := by
  apply refines_of_binary
  intro args x y v hx hy hxy
  obtain rfl := Except.ok.inj hx
  rw [eval_literal, h y v hxy]

theorem refines_timesZero {place q : Place} {left : Tree Place} :
    (Tree.binary place .mul left (.literal q 0)).Refines (.literal place 0) := by
  apply refines_of_binary
  intro args x y v hx hy hxy
  obtain rfl := Except.ok.inj hy
  have hv : 0 = v := by simpa [Operator.compute?] using hxy
  rw [eval_literal, hv]

theorem refines_zeroMinus {place p : Place} {right : Tree Place} :
    (Tree.binary place .sub (.literal p 0) right).Refines (.negate place right) := by
  apply refines_of_binary
  intro args x y v hx hy hxy
  obtain rfl := Except.ok.inj hx
  refine eval_negate_eq_ok.mpr ⟨y, hy, ?_⟩
  simpa [Operator.compute?] using hxy

/-- An operation on a parameter and itself is a literal if it has one value on equal
operands. -/
theorem refines_self {place p q : Place} {op : Operator} {i : Nat} {c : Int64}
    (h : ∀ x v, op.compute? x x = some v → c = v) :
    (Tree.binary place op (.param p i) (.param q i)).Refines (.literal place c) := by
  apply refines_of_binary
  intro args x y v hx hy hxy
  obtain rfl := Except.ok.inj (hx.symm.trans hy)
  rw [eval_literal, h x v hxy]

theorem zero_of_compute?_div {y v : Int64} (h : Operator.div.compute? 0 y = some v) :
    0 = v := by
  simp only [Operator.compute?] at h
  split at h
  · cases h
  · rw [Int64.zero_div] at h
    exact Option.some.inj h

theorem one_of_compute?_div {x v : Int64} (h : Operator.div.compute? x x = some v) :
    1 = v := by
  simp only [Operator.compute?] at h
  split at h
  · cases h
  · rename_i hne
    rw [Int64.div_self, if_neg hne] at h
    exact Option.some.inj h

/-! ## Rules that regroup a chain -/

section

variable {place p old q r : Place} {op inner chain : Operator}

theorem refines_mergeRightInner {l a v : Int64} {b : Tree Place}
    (hchain : op.sameChain inner = true) (h : op.compute? l a = some v) :
    (Tree.binary place op (.literal p l) (.binary old inner (.literal q a) b)).Refines
      (.binary place (op.compose inner) (.literal p v) b) := by
  apply refines_of_binary
  intro args x y w hx hy hxy
  obtain ⟨m, n, hm, hn, hmn⟩ := eval_binary_eq_ok.mp hy
  obtain rfl := Except.ok.inj hx
  obtain rfl := Except.ok.inj hm
  obtain ⟨u, hu, huw⟩ := Operator.compute?_regroup hchain hmn hxy
  obtain rfl := Option.some.inj (h.symm.trans hu)
  exact eval_binary_eq_ok.mpr ⟨v, n, rfl, hn, huw⟩

theorem refines_mergeRightOuter {l b v : Int64} {a : Tree Place}
    (hchain : op.sameChain inner = true) (h : (op.compose inner).compute? l b = some v) :
    (Tree.binary place op (.literal p l) (.binary old inner a (.literal q b))).Refines
      (.binary place op (.literal p v) a) := by
  apply refines_of_binary
  intro args x y w hx hy hxy
  obtain ⟨m, n, hm, hn, hmn⟩ := eval_binary_eq_ok.mp hy
  obtain rfl := Except.ok.inj hx
  obtain rfl := Except.ok.inj hn
  obtain ⟨u, hu, huw⟩ := Operator.compute?_regroup_swap hchain hmn hxy
  obtain rfl := Option.some.inj (h.symm.trans hu)
  exact eval_binary_eq_ok.mpr ⟨v, m, rfl, hm, huw⟩

theorem refines_mergeLeftOuter {b c v : Int64} {a : Tree Place}
    (hchain : op.chain? = some chain) (hsame : op.sameChain inner = true)
    (h : op.compute? (inner.signed b) c = some v) :
    (Tree.binary place op (.binary old inner a (.literal q b)) (.literal r c)).Refines
      (.binary place chain a (.literal r v)) := by
  apply refines_of_binary
  intro args x y w hx hy hxy
  obtain ⟨m, n, hm, hn, hmn⟩ := eval_binary_eq_ok.mp hx
  obtain rfl := Except.ok.inj hy
  obtain rfl := Except.ok.inj hn
  obtain ⟨u, hu, huw⟩ := Operator.compute?_gather hchain hsame hmn hxy
  obtain rfl := Option.some.inj (h.symm.trans hu)
  exact eval_binary_eq_ok.mpr ⟨m, v, hm, rfl, huw⟩

theorem refines_mergeLeftInner {a c v : Int64} {b : Tree Place}
    (hsame : op.sameChain inner = true) (h : op.compute? a c = some v) :
    (Tree.binary place op (.binary old inner (.literal q a) b) (.literal r c)).Refines
      (.binary place inner (.literal r v) b) := by
  apply refines_of_binary
  intro args x y w hx hy hxy
  obtain ⟨m, n, hm, hn, hmn⟩ := eval_binary_eq_ok.mp hx
  obtain rfl := Except.ok.inj hy
  obtain rfl := Except.ok.inj hm
  obtain ⟨u, hu, huw⟩ := Operator.compute?_swap hsame hmn hxy
  obtain rfl := Option.some.inj (h.symm.trans hu)
  exact eval_binary_eq_ok.mpr ⟨v, n, rfl, hn, huw⟩

theorem refines_rotate (grouped : Place) {left c d : Tree Place}
    (hsame : op.sameChain inner = true) :
    (Tree.binary place op left (.binary old inner c d)).Refines
      (.binary place (op.compose inner) (.binary grouped op left c) d) := by
  apply refines_of_binary
  intro args x y w hx hy hxy
  obtain ⟨m, n, hm, hn, hmn⟩ := eval_binary_eq_ok.mp hy
  obtain ⟨u, hu, huw⟩ := Operator.compute?_regroup hsame hmn hxy
  exact eval_binary_eq_ok.mpr ⟨u, n, eval_binary_eq_ok.mpr ⟨x, m, hx, hm, hu⟩, hn, huw⟩

/-- Two operands that are taken from the left may change their order.  The second operand
may get another place on the way. -/
theorem refines_surface (grouped : Place) {a right moved c : Tree Place}
    (hsame : op.sameChain inner = true) (hmoved : right.Refines moved) :
    (Tree.binary place op (.binary old inner a c) right).Refines
      (.binary place inner (.binary grouped op a moved) c) := by
  apply refines_of_binary
  intro args x y w hx hy hxy
  obtain ⟨m, n, hm, hn, hmn⟩ := eval_binary_eq_ok.mp hx
  obtain ⟨u, hu, huw⟩ := Operator.compute?_swap hsame hmn hxy
  have hgrouped : (Tree.binary grouped op a moved).eval args = .ok u :=
    eval_binary_eq_ok.mpr ⟨m, y, hm, hmoved args y hy, hu⟩
  exact eval_binary_eq_ok.mpr ⟨u, n, hgrouped, hn, huw⟩

end

/-! ## Steps and runs -/

/-- Every outcome of a rule keeps the values of the tree. -/
theorem Rewrites.refines {t : Tree Place} {s : Step} (h : Rewrites t s) :
    s.Leads t.Refines := by
  cases h with
  | negateLiteral place p v => exact refines_negateLiteral place p v
  | doubleNegation place p t =>
    exact refines_withTag place (refines_doubleNegation place p t)
  | fold place p q op l r v hop => exact refines_fold hop
  | zeroMinus place p right => exact refines_zeroMinus
  | zeroPlus place p right =>
    refine refines_withTag place (refines_right fun y v h => ?_)
    simpa [Operator.compute?] using h
  | plusZero place q op left hadd =>
    refine refines_withTag place (refines_left fun x v h => ?_)
    cases op <;> simp_all [Operator.compute?, Operator.isAdditive]
  | zeroTimes place p right =>
    refine refines_constant_left fun y v h => ?_
    simpa [Operator.compute?] using h
  | timesZero place q left => exact refines_timesZero
  | timesOne place q left =>
    refine refines_withTag place (refines_left fun x v h => ?_)
    simpa [Operator.compute?] using h
  | oneTimes place p right =>
    refine refines_withTag place (refines_right fun y v h => ?_)
    simpa [Operator.compute?] using h
  | zeroOver place p right =>
    exact refines_constant_left fun y v h => zero_of_compute?_div h
  | selfMinus place p q i =>
    refine refines_self fun x v h => ?_
    simpa [Operator.compute?] using h
  | selfOver place p q i => exact refines_self fun x v h => one_of_compute?_div h
  | mergeRightInner place p old q op inner l a v b hchain hop =>
    exact refines_mergeRightInner hchain hop
  | mergeRightOuter place p old q op inner l b v a hchain hop =>
    exact refines_mergeRightOuter hchain hop
  | mergeLeftOuter place old q r op inner chain b c v a hchain hsame hop =>
    exact refines_mergeLeftOuter hchain hsame hop
  | mergeLeftInner place old q r op inner a c v b hsame hop =>
    exact refines_mergeLeftInner hsame hop
  | rotate place old op inner left c d hsame hslot => exact refines_rotate _ hsame
  | surface place old q op inner a right c hsame hright hslot =>
    exact refines_surface _ hsame (Refines.refl right)
  | surfaceParam place old q leaf op inner a c i hsame hslot =>
    exact refines_surface _ hsame fun args v hv => hv

theorem rewriting_refines : Rewriting (fun _ => True) Tree.Refines where
  refl t _ := Refines.refl t
  trans _ _ _ := Refines.trans
  keeps _ _ _ _ := trivial
  operand _ _ _ := trivial
  left _ _ _ _ _ := trivial
  right _ _ _ _ _ := trivial
  negate place _ _ _ := Refines.negate place
  binary place op _ _ _ _ _ := Refines.binary place op
  step _ _ := step_of_rewrites trivial fun _ => Rewrites.refines

end Simplify

/-- The simple form of a tree has every value that the tree has. -/
theorem Tree.simplify_refines (t : Tree Place) : t.Refines t.simplify :=
  Simplify.rewriting_refines.simplify trivial

end Abacus
