import Abacus.Proofs.Division
import Abacus.Proofs.Ranges
import Abacus.Proofs.Simplify.Loop
import Abacus.Proofs.Simplify.Value

set_option autoImplicit false

/-!
# Where the divisions of a simple form come from

A division of a simple form may stand in another place than it was written: when a rule
drops the other operand of a node, what is left moves up and takes over the wider span of
that node.  Its divisor may have been rewritten as well, and operands that used to fail
before it may be gone.  If it divides by zero, the tree as written divides by zero inside
the span that is reported, though perhaps at another division.

The argument follows single rules.  A regrouped chain has the divisions that it had
before.  A moved division has a wider span than before.  If the divisor of a division is
rewritten and becomes zero, the old divisor was zero too or failed, and it failed within
the span of the division.

Main statements:

* `Tree.traces_simplify`: each division by zero of a simple form encloses one of the tree.
* `Arena.exists_zeroDivisor_of_simplify`: the same of accepted sources and of the span of
  the error.
-/

namespace Abacus

namespace Tree

variable {args : List Int64} {place : Place} {op : Operator}
  {t u w l l' r r' : Tree Place}

/-- For each division by zero in the second tree there is one in the first tree, within
its span. -/
def Origins (t u : Tree Place) : Prop :=
  ∀ args place, u.ZeroDivision args place →
    ∃ origin, t.ZeroDivision args origin ∧ origin.span.Within place.span

/-- The second tree is a rewritten form of the first one whose divisions can be traced
back. -/
structure Traces (t u : Tree Place) : Prop where
  fits : t.FitsIn u
  refines : t.Refines u
  origins : t.Origins u

theorem Origins.of_imp
    (h : ∀ args place, u.ZeroDivision args place → t.ZeroDivision args place) :
    t.Origins u :=
  fun args place hu => ⟨place, h args place hu, Nat.le_refl _, Nat.le_refl _⟩

theorem Origins.literal {v : Int64} : t.Origins (.literal place v) :=
  Origins.of_imp fun _ _ h => absurd h not_zeroDivision_literal

theorem Origins.trans (htu : t.Origins u) (huw : u.Origins w) : t.Origins w := by
  intro args place hw
  obtain ⟨middle, hu, hmiddle⟩ := huw args place hw
  obtain ⟨origin, ht, horigin⟩ := htu args middle hu
  exact ⟨origin, ht, horigin.trans hmiddle⟩

/-- A division that takes over a wider place still encloses where it comes from. -/
theorem Origins.withTag (hwithin : u.tag.span.Within place.span)
    (h : ∀ args place, u.ZeroDivision args place → t.ZeroDivision args place) :
    t.Origins (u.withTag place) := by
  intro args p hp
  cases u with
  | literal => exact absurd hp not_zeroDivision_literal
  | param => exact absurd hp not_zeroDivision_param
  | negate tag operand =>
    exact Origins.of_imp h args p (zeroDivision_negate.mpr (zeroDivision_negate.mp hp))
  | binary tag op left right =>
    rw [Tree.withTag, zeroDivision_binary] at hp
    rcases hp with hl | hr | ⟨rfl, rfl, hzero⟩
    · exact Origins.of_imp h args p (zeroDivision_binary.mpr (Or.inl hl))
    · exact Origins.of_imp h args p (zeroDivision_binary.mpr (Or.inr (Or.inl hr)))
    · exact ⟨tag,
        h args tag (zeroDivision_binary.mpr (Or.inr (Or.inr ⟨rfl, rfl, hzero⟩))), hwithin⟩

theorem Traces.refl (h : t.Ordered) : t.Traces t :=
  ⟨FitsIn.refl h, Refines.refl t, Origins.of_imp fun _ _ h => h⟩

theorem Traces.trans (htu : t.Traces u) (huw : u.Traces w) : t.Traces w :=
  ⟨htu.fits.trans huw.fits, htu.refines.trans huw.refines, htu.origins.trans huw.origins⟩

theorem Traces.negate (h : t.Traces u) (hwell : (Tree.negate place t).WellPlaced) :
    (Tree.negate place t).Traces (.negate place u) := by
  refine ⟨FitsIn.negate h.fits hwell.ordered, h.refines.negate place, fun args p hp => ?_⟩
  obtain ⟨origin, ht, hwithin⟩ := h.origins args p (zeroDivision_negate.mp hp)
  exact ⟨origin, zeroDivision_negate.mpr ht, hwithin⟩

/-- Rewriting the operands of a node keeps a division traceable, even if its own divisor
becomes zero only by that. -/
theorem Traces.binary (hl : l.Traces l') (hr : r.Traces r')
    (hwell : (Tree.binary place op l r).WellPlaced)
    (hnested : (Tree.binary place op l r).Nested Place.span) :
    (Tree.binary place op l r).Traces (.binary place op l' r') := by
  refine ⟨FitsIn.binary hl.fits hr.fits hwell.ordered,
    Refines.binary place op hl.refines hr.refines, fun args p hp => ?_⟩
  rcases zeroDivision_binary.mp hp with hp | hp | ⟨rfl, rfl, hzero⟩
  · obtain ⟨origin, ht, hwithin⟩ := hl.origins args p hp
    exact ⟨origin, zeroDivision_binary.mpr (Or.inl ht), hwithin⟩
  · obtain ⟨origin, ht, hwithin⟩ := hr.origins args p hp
    exact ⟨origin, zeroDivision_binary.mpr (Or.inr (Or.inl ht)), hwithin⟩
  · cases hdivisor : r.eval args with
    | ok v =>
      -- The old divisor has a value, so this is the zero that the new one has.
      obtain rfl := Except.ok.inj ((hr.refines args v hdivisor).symm.trans hzero)
      exact ⟨place, zeroDivision_binary.mpr (Or.inr (Or.inr ⟨rfl, rfl, hdivisor⟩)),
        Nat.le_refl _, Nat.le_refl _⟩
    | error failed =>
      -- The old divisor fails at a division of its own, whose span lies within that of
      -- the node.
      have hfailed := zeroDivision_of_eval_error hdivisor
      obtain ⟨left, right, hsub, -⟩ := hfailed
      exact ⟨failed,
        zeroDivision_binary.mpr (Or.inr (Or.inl (zeroDivision_of_eval_error hdivisor))),
        (hsub.within hnested.2.2.2).trans hnested.2.1⟩

end Tree

/-! ## Rules, steps and runs -/

namespace Simplify

open Abacus.Tree

/-- No operation of a chain is a division, nor are the operations that it is regrouped
with. -/
theorem not_div_of_sameChain {op inner : Operator} (h : op.sameChain inner = true) :
    op ≠ .div ∧ inner ≠ .div ∧ op.compose inner ≠ .div ∧ op.chain? ≠ some .div := by
  revert h
  cases op <;> cases inner <;> decide

/-- Each division by zero of what a rule makes of a tree encloses one of the tree. -/
theorem Rewrites.origins {t : Tree Place} {s : Step} (h : Rewrites t s)
    (hnested : t.Nested Place.span) : s.Leads t.Origins := by
  cases h with
  | negateLiteral | fold | zeroTimes | timesZero | zeroOver | selfMinus | selfOver =>
    exact Origins.literal
  | doubleNegation place p t =>
    exact Origins.withTag (hnested.2.1.trans hnested.1) (by simp)
  | zeroPlus | oneTimes => exact Origins.withTag hnested.2.1 (by simp)
  | plusZero | timesOne => exact Origins.withTag hnested.1 (by simp +contextual)
  | zeroMinus => exact Origins.of_imp (by simp)
  | mergeRightInner place p old q op inner l a v b hchain hop =>
    obtain ⟨-, -, hcompose, -⟩ := not_div_of_sameChain hchain
    exact Origins.of_imp (by simp +contextual [hcompose])
  | mergeRightOuter place p old q op inner l b v a hchain hop =>
    obtain ⟨hop, -, -, -⟩ := not_div_of_sameChain hchain
    exact Origins.of_imp (by simp +contextual [hop])
  | mergeLeftOuter place old q r op inner chain b c v a hchain hsame hop =>
    obtain ⟨-, -, -, hne⟩ := not_div_of_sameChain hsame
    rw [hchain, Ne, Option.some_inj] at hne
    exact Origins.of_imp (by simp +contextual [hne])
  | mergeLeftInner place old q r op inner a c v b hsame hop =>
    obtain ⟨-, hinner, -, -⟩ := not_div_of_sameChain hsame
    exact Origins.of_imp (by simp +contextual [hinner])
  | rotate place old op inner left c d hsame hslot =>
    obtain ⟨hop, hinner, hcompose, -⟩ := not_div_of_sameChain hsame
    exact Origins.of_imp (by simp [hop, hinner, hcompose, or_assoc])
  | surface place old q op inner a right c hsame hright hslot =>
    obtain ⟨hop, hinner, -, -⟩ := not_div_of_sameChain hsame
    exact Origins.of_imp (by simp [hop, hinner])
  | surfaceParam place old q leaf op inner a c i hsame hslot =>
    obtain ⟨hop, hinner, -, -⟩ := not_div_of_sameChain hsame
    exact Origins.of_imp (by simp [hop, hinner])

theorem Rewrites.traces {t : Tree Place} {s : Step} (h : Rewrites t s)
    (hwell : t.WellPlaced) (hnested : t.Nested Place.span) : s.Leads t.Traces := by
  have hfits := h.fitsIn hwell
  have hrefines := h.refines
  have horigins := h.origins hnested
  cases s with
  | done => trivial
  | again => exact ⟨hfits, hrefines, horigins⟩
  | settleLeft => exact ⟨hfits, hrefines, horigins⟩

theorem rewriting_traces :
    Rewriting (fun t => t.WellPlaced ∧ t.Nested Place.span) Tree.Traces where
  refl _ ht := Traces.refl ht.1.ordered
  trans _ _ _ := Traces.trans
  keeps _ _ ht h := ⟨h.fits.wellPlaced ht.1, h.fits.nested ht.2⟩
  operand _ _ ht := ⟨ht.1.operand, ht.2.2⟩
  left _ _ _ _ ht := ⟨ht.1.left, ht.2.2.2.1⟩
  right _ _ _ _ ht := ⟨ht.1.right, ht.2.2.2.2⟩
  negate _ _ _ ht h := h.negate ht.1
  binary _ _ _ _ _ _ ht hl hr := Traces.binary hl hr ht.1 ht.2
  step _ ht := step_of_rewrites trivial fun _ h => h.traces ht.1 ht.2

end Simplify

/-- Each division by zero of a simple form encloses one of the tree. -/
theorem Tree.traces_simplify {t : Tree Place} (hwell : t.WellPlaced)
    (hnested : t.Nested Place.span) : t.Traces t.simplify :=
  Simplify.rewriting_traces.simplify ⟨hwell, hnested⟩

/-! ## Accepted sources -/

namespace Arena

variable {source : String} {names : List String} {maxDepth : Nat} {a : Arena}
  {args : List Int64}
  {span : Option Span} {offset : Option Nat}

/-- Where the simplified arena of an accepted source reports a division by zero, the span
that it reports encloses a division of the arena as it was read whose divisor is zero for
the arguments.  So the arena as it was read fails as well. -/
theorem exists_zeroDivisor_of_simplify (h : Arena.parse source names maxDepth = .ok a)
    (herror : a.simplify.evaluate args = .error (.divisionByZero span offset)) :
    ∃ reported, span = some reported ∧
      (∃ slot divisor, a.ZeroDivisor args slot divisor ∧
        (placeAt a.nodes slot).span.Within reported) ∧
      ∃ failed, a.evaluate args = .error (.divisionByZero (some failed) none) := by
  obtain ⟨t, ht, hnested⟩ := exists_nested_of_parse h
  obtain ⟨hlength, place, hplace, rfl⟩ := ht.simplify.exists_eval_error herror
  rw [paramCount_simplify] at hlength
  have htraces := Tree.traces_simplify ht.wellPlaced hnested
  obtain ⟨origin, hzero, hwithin⟩ :=
    htraces.origins args place (Tree.zeroDivision_of_eval_error hplace)
  obtain ⟨failed, hfailed⟩ := hzero.exists_eval_error
  obtain ⟨left, right, hsub, hright⟩ := hzero
  have horigin : placeAt a.nodes origin.slot = origin :=
    (ht.holds.subtree hsub).placeAt_eq
  refine ⟨place.span, rfl,
    ⟨origin.slot, right.tag.slot, ht.zeroDivisor hlength hsub hright, ?_⟩,
    failed.span, ?_⟩
  · rw [horigin]
    exact hwithin
  · rw [ht.evaluate_eq hlength, hfailed]
    rfl

/-- The quotient of `0+6/x` moves up.  For `0` it fails with the span of the whole source,
which encloses that of the quotient as written. -/
theorem exists_zeroDivisor_of_simplify_moved :
    ∃ a, Arena.parse "0+6/x" ["x"] 1 = .ok a ∧
      a.simplify.evaluate [0] = .error (.divisionByZero (some ⟨0, 5⟩) none) ∧
      ∃ slot divisor, a.ZeroDivisor [0] slot divisor ∧
        (placeAt a.nodes slot).span.Within ⟨0, 5⟩ := by
  obtain ⟨a, hparse, htree⟩ : ∃ a, Arena.parse "0+6/x" ["x"] 1 = .ok a ∧
      a.tree? = some (.binary ⟨4, ⟨0, 5⟩⟩ .add (.literal ⟨2, ⟨0, 1⟩⟩ 0)
        (.binary ⟨3, ⟨2, 5⟩⟩ .div (.literal ⟨0, ⟨2, 3⟩⟩ 6) (.param ⟨1, ⟨4, 5⟩⟩ 0))) := by
    have hparse : Arena.parse "0+6/x" ["x"] 1 =
        .ok ⟨#[⟨.literal 6, ⟨2, 3⟩⟩, ⟨.param 0, ⟨4, 5⟩⟩, ⟨.literal 0, ⟨0, 1⟩⟩,
          ⟨.binary .div 0 1, ⟨2, 5⟩⟩, ⟨.binary .add 2 3, ⟨0, 5⟩⟩], 1⟩ := by
      decide +kernel
    exact ⟨_, hparse, by decide +kernel⟩
  obtain ⟨t, ht⟩ := stores_of_parse hparse
  obtain rfl := Option.some.inj (ht.tree?_eq.symm.trans htree)
  have herror :
      a.simplify.evaluate [0] = .error (.divisionByZero (some ⟨0, 5⟩) none) := by
    have hlength : [0].length = a.simplify.paramCount := by
      rw [paramCount_simplify, paramCount_of_parse hparse]
      rfl
    have hquotient (place p q : Place) :
        Simplify.settle (.binary place .div (.literal p 6) (.param q 0)) =
          .binary place .div (.literal p 6) (.param q 0) :=
      Simplify.settle_of_done rfl
    rw [ht.simplify.evaluate_eq hlength]
    simp only [Tree.simplify, hquotient]
    rw [(Simplify.settle_of_again rfl).trans (hquotient _ _ _)]
    rfl
  obtain ⟨_, hreported, hzero, -⟩ := exists_zeroDivisor_of_simplify hparse herror
  obtain rfl := Option.some.inj hreported
  exact ⟨a, hparse, herror, hzero⟩

end Arena

end Abacus
