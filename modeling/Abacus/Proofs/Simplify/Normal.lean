import Abacus.Proofs.Language
import Abacus.Proofs.Reachability
import Abacus.Proofs.Simplify.Loop

set_option autoImplicit false

/-!
# Simple trees stay as they are

A tree is *simple* if no rule applies to any of its nodes.  Every node is settled only
once, after its operands, so the question is whether a rule can make an operand of an
operand fit for another rule.  It cannot: apart from an operation that is settled again, a
rule puts together only trees that were simple before.

Main statements:

* `Tree.simple_simplify`: no rule applies to any node of a simple form.
* `Arena.Stores.simplify_simplify`: simplifying a second time changes nothing.
* `Arena.simplify_stable`: both, for the arenas that sources are read into.
-/

namespace Abacus

namespace Tree

/-- No rule applies to any node. -/
def Simple : Tree Place → Prop
  | literal _ _ => True
  | param _ _ => True
  | negate place operand => Simplify.step (negate place operand) = .done ∧ operand.Simple
  | binary place op left right =>
    Simplify.step (binary place op left right) = .done ∧ left.Simple ∧ right.Simple

/-- No rule applies below the root. -/
def SimpleBelow : Tree Place → Prop
  | literal _ _ => True
  | param _ _ => True
  | negate _ operand => operand.Simple
  | binary _ _ left right => left.Simple ∧ right.Simple

variable {t u : Tree Place}

theorem simple_iff : t.Simple ↔ Simplify.step t = .done ∧ t.SimpleBelow := by
  cases t with
  | literal => exact ⟨fun _ => ⟨rfl, trivial⟩, fun _ => trivial⟩
  | param => exact ⟨fun _ => ⟨rfl, trivial⟩, fun _ => trivial⟩
  | negate => exact Iff.rfl
  | binary => exact Iff.rfl

theorem Simple.below (h : t.Simple) : t.SimpleBelow := (simple_iff.mp h).2

theorem Simple.subtree (h : t.Simple) (hu : Subtree u t) : u.Simple :=
  hu.inherit (fun _ _ h => h.2) (fun _ _ _ _ h => h.2.1) (fun _ _ _ _ h => h.2.2) h

theorem SimpleBelow.withTag (h : t.SimpleBelow) (place : Place) :
    (t.withTag place).SimpleBelow := by
  cases t <;> exact h

end Tree

/-! ## Rules put simple trees together -/

namespace Simplify

open Abacus.Tree

/-- What a step leaves to be settled: the root, or the left operand before it. -/
def Step.SimpleElsewhere : Step → Prop
  | .done => True
  | .again u => u.SimpleBelow
  | .settleLeft _ _ left right => left.SimpleBelow ∧ right.Simple

theorem Rewrites.simpleElsewhere {t : Tree Place} {s : Step} (h : Rewrites t s)
    (ht : t.SimpleBelow) : s.SimpleElsewhere := by
  cases h with
  | negateLiteral | fold | zeroTimes | timesZero | zeroOver | selfMinus | selfOver =>
    trivial
  | doubleNegation place p t =>
    have hinner : t.Simple := ht.below
    exact hinner.below.withTag place
  | zeroMinus place p right => exact ht.2
  | zeroPlus place p right => exact ht.2.below.withTag place
  | oneTimes place p right => exact ht.2.below.withTag place
  | plusZero place q op left hop => exact ht.1.below.withTag place
  | timesOne place q left => exact ht.1.below.withTag place
  | mergeRightInner => exact ⟨trivial, ht.2.below.2⟩
  | mergeRightOuter => exact ⟨trivial, ht.2.below.1⟩
  | mergeLeftOuter => exact ⟨ht.1.below.1, trivial⟩
  | mergeLeftInner => exact ⟨trivial, ht.1.below.2⟩
  | rotate => exact ⟨⟨ht.1, ht.2.below.1⟩, ht.2.below.2⟩
  | surface => exact ⟨⟨ht.1.below.1, ht.2⟩, trivial⟩
  | surfaceParam => exact ⟨⟨ht.1.below.1, trivial⟩, trivial⟩

theorem step_simpleElsewhere {t : Tree Place} (ht : t.SimpleBelow) :
    (step t).SimpleElsewhere :=
  step_of_rewrites trivial fun _ h => h.simpleElsewhere ht

/-- A tree whose operands are simple is simple once it is settled. -/
theorem simple_settle {t : Tree Place} : t.SimpleBelow → (settle t).Simple := by
  apply settle_rel (R := fun t v => t.SimpleBelow → v.Simple)
  · intro t hstep ht
    exact simple_iff.mpr ⟨hstep, ht⟩
  · intro t u v hstep huv ht
    have hu := step_simpleElsewhere ht
    rw [hstep] at hu
    exact huv hu
  · intro t place op left right settled v hstep hleft hwhole ht
    have hu := step_simpleElsewhere ht
    rw [hstep] at hu
    exact hwhole ⟨hleft hu.1, hu.2⟩

end Simplify

/-- No rule applies to any node of a simple form. -/
theorem Tree.simple_simplify (t : Tree Place) : t.simplify.Simple := by
  induction t with
  | literal => trivial
  | param => trivial
  | negate place operand ih => exact Simplify.simple_settle ih
  | binary place op left right ihl ihr => exact Simplify.simple_settle ⟨ihl, ihr⟩

/-! ## The loop on a simple tree -/

namespace Arena

variable {a : Arena} {t : Tree Place}

/-- A look at any node of a simple tree finds nothing to do. -/
theorem Stores.ofSlot_eq_done (h : a.Stores t) (ht : t.Simple) {slot : Nat}
    (hslot : a.Reachable slot) : Edit.ofSlot a.nodes slot = .done := by
  obtain ⟨u, hu, rfl⟩ := h.reachable_iff_subtree.mp hslot
  exact Edit.ofSlot_eq_done (h.holds.subtree hu) (Tree.simple_iff.mp (ht.subtree hu)).1

/-- Where there is nothing to do, the loop takes the slots off the order and writes
none. -/
theorem Settling.reaches_of_done {nodes : Array Node} {order : List Nat}
    (h : ∀ slot ∈ order, Edit.ofSlot nodes slot = .done) :
    Settling.Reaches ⟨nodes, [], order⟩ ⟨nodes, [], []⟩ := by
  induction order with
  | nil => exact .refl
  | cons slot rest ih =>
    rw [List.forall_mem_cons] at h
    exact .head rfl (.head (next_of_done h.1) (ih h.2))

/-- The loop changes nothing in an arena that stores a simple tree. -/
theorem Stores.settling_ends_of_simple (h : a.Stores t) (ht : t.Simple) :
    (Settling.start a).Ends a.nodes :=
  ⟨_, Settling.reaches_of_done fun _ hslot =>
    h.ofSlot_eq_done ht (h.reachable_iff.mpr (h.postOrder_eq ▸ hslot)), rfl⟩

/-- Simplifying a second time changes nothing, not even in slots that the root does not
reach. -/
theorem Stores.simplify_simplify (h : a.Stores t) : a.simplify.simplify = a.simplify :=
  simplify_of_ends (h.simplify.settling_ends_of_simple t.simple_simplify)

variable {source : String} {names : List String} {maxDepth : Nat}

/-- Simplifying an accepted source comes to an end, with a table in which no rule applies
to any node that the root reaches.  A second time the loop ends with the very same
table. -/
theorem simplify_stable (h : Arena.parse source names maxDepth = .ok a) :
    (Settling.start a).Ends a.simplify.nodes ∧
    (∀ slot, a.simplify.Reachable slot → Edit.ofSlot a.simplify.nodes slot = .done) ∧
    (Settling.start a.simplify).Ends a.simplify.nodes ∧
    a.simplify.simplify = a.simplify := by
  obtain ⟨t, ht⟩ := stores_of_parse h
  exact ⟨ht.settling_ends, fun _ hslot =>
    ht.simplify.ofSlot_eq_done t.simple_simplify hslot,
    ht.simplify.settling_ends_of_simple t.simple_simplify, ht.simplify_simplify⟩

/-- The zero of `2*(x+0)` disappears, and then nothing is left to do at the root. -/
theorem simplify_stable_product :
    ∃ a, Arena.parse "2*(x+0)" ["x"] 1 = .ok a ∧
      Edit.ofSlot a.simplify.nodes a.simplify.root = .done ∧
        a.simplify.simplify = a.simplify := by
  have hparse : Arena.parse "2*(x+0)" ["x"] 1 =
      .ok ⟨#[⟨.param 0, ⟨3, 4⟩⟩, ⟨.literal 0, ⟨5, 6⟩⟩, ⟨.literal 2, ⟨0, 1⟩⟩,
        ⟨.binary .add 0 1, ⟨3, 6⟩⟩, ⟨.binary .mul 2 3, ⟨0, 6⟩⟩], 1⟩ := by
    decide +kernel
  obtain ⟨-, hdone, -, hstable⟩ := simplify_stable hparse
  exact ⟨_, hparse, hdone _ .root, hstable⟩

end Arena

end Abacus
