import Abacus.Proofs.Reachability
import Abacus.Proofs.Traversal

set_option autoImplicit false

/-!
# Divisions by zero

An evaluation that fails names a division, by its tag or by its span.  Here the other half
is said: the division is there, and its divisor, evaluated alone, is zero.  `Arena.upTo`
is what "alone" means for a table: since operands lie below the nodes that use them, the
slots up to a node are an arena of which that node is the root.

Main statements:

* `Tree.zeroDivision_of_eval_error`: a tree fails only at one of its divisions by zero.
* `Arena.Stores.upTo`: the slots up to a node store the subtree of that node.
* `Arena.Stores.zeroDivisor`: the divisions by zero of the stored tree are those of the
  arena.
-/

namespace Abacus

namespace Tree

variable {α : Type} {args : List Int64} {tag : α} {t u : Tree α}

/-- The tree has a division with the tag, and its divisor is zero for the arguments. -/
def ZeroDivision (args : List Int64) (tag : α) (t : Tree α) : Prop :=
  ∃ left right, Subtree (binary tag .div left right) t ∧ right.eval args = .ok 0

theorem ZeroDivision.of_subtree (h : u.ZeroDivision args tag) (hu : Subtree u t) :
    t.ZeroDivision args tag := by
  obtain ⟨left, right, hsub, hzero⟩ := h
  exact ⟨left, right, hsub.trans hu, hzero⟩

@[simp] theorem not_zeroDivision_literal {place : α} {v : Int64} :
    ¬ (literal place v).ZeroDivision args tag := by
  rintro ⟨_, _, ⟨⟩, -⟩

@[simp] theorem not_zeroDivision_param {place : α} {index : Nat} :
    ¬ (param place index).ZeroDivision args tag := by
  rintro ⟨_, _, ⟨⟩, -⟩

@[simp] theorem zeroDivision_negate {place : α} :
    (negate place t).ZeroDivision args tag ↔ t.ZeroDivision args tag := by
  refine ⟨?_, fun h => h.of_subtree (.negate _ (.refl _))⟩
  rintro ⟨left, right, hsub, hzero⟩
  cases hsub with
  | negate _ h => exact ⟨left, right, h, hzero⟩

@[simp] theorem zeroDivision_binary {place : α} {op : Operator} {l r : Tree α} :
    (binary place op l r).ZeroDivision args tag ↔
      l.ZeroDivision args tag ∨ r.ZeroDivision args tag ∨
        op = .div ∧ place = tag ∧ r.eval args = .ok 0 := by
  constructor
  · rintro ⟨left, right, hsub, hzero⟩
    cases hsub with
    | refl => exact Or.inr (Or.inr ⟨rfl, rfl, hzero⟩)
    | left _ _ _ hl => exact Or.inl ⟨left, right, hl, hzero⟩
    | right _ _ _ hr => exact Or.inr (Or.inl ⟨left, right, hr, hzero⟩)
  · rintro (hl | hr | ⟨rfl, rfl, hzero⟩)
    · exact hl.of_subtree (.left _ _ _ (.refl _))
    · exact hr.of_subtree (.right _ _ _ (.refl _))
    · exact ⟨l, r, .refl _, hzero⟩

/-- A tree fails only at one of its divisions by zero. -/
theorem zeroDivision_of_eval_error (h : t.eval args = .error tag) :
    t.ZeroDivision args tag := by
  induction t with
  | literal => cases h
  | param => cases h
  | negate place operand ih =>
    exact zeroDivision_negate.mpr (ih (eval_negate_eq_error.mp h))
  | binary place op left right ihl ihr =>
    rw [zeroDivision_binary]
    rcases eval_binary_eq_error.mp h with hl | ⟨_, -, hr⟩ | ⟨_, r, -, hr, hop, rfl⟩
    · exact Or.inl (ihl hl)
    · exact Or.inr (Or.inl (ihr hr))
    · obtain ⟨rfl, rfl⟩ := Operator.compute?_eq_none_iff.mp hop
      exact Or.inr (Or.inr ⟨rfl, rfl, hr⟩)

/-- A tree with a division by zero fails, there or before it. -/
theorem ZeroDivision.exists_eval_error (h : t.ZeroDivision args tag) :
    ∃ e, t.eval args = .error e := by
  induction t with
  | literal => exact absurd h not_zeroDivision_literal
  | param => exact absurd h not_zeroDivision_param
  | negate place operand ih =>
    obtain ⟨e, he⟩ := ih (zeroDivision_negate.mp h)
    exact ⟨e, eval_negate_eq_error.mpr he⟩
  | binary place op left right ihl ihr =>
    rw [zeroDivision_binary] at h
    cases hl : left.eval args with
    | error e => exact ⟨e, eval_binary_eq_error.mpr (Or.inl hl)⟩
    | ok l =>
      rcases h with h | h | ⟨rfl, -, hzero⟩
      · obtain ⟨e, he⟩ := ihl h
        cases hl.symm.trans he
      · obtain ⟨e, he⟩ := ihr h
        exact ⟨e, eval_binary_eq_error.mpr (Or.inr (Or.inl ⟨l, hl, he⟩))⟩
      · have hnone : Operator.div.compute? l 0 = none :=
          Operator.compute?_eq_none_iff.mpr ⟨rfl, rfl⟩
        exact ⟨place,
          eval_binary_eq_error.mpr (Or.inr (Or.inr ⟨l, 0, hl, hzero, hnone, rfl⟩))⟩

/-- The span of a node encloses those of all nodes below it. -/
theorem Subtree.within {t u : Tree Place} (hu : Subtree u t) (ht : t.Nested Place.span) :
    u.tag.span.Within t.tag.span := by
  induction hu with
  | refl => exact ⟨Nat.le_refl _, Nat.le_refl _⟩
  | negate _ _ ih => exact (ih ht.2).trans ht.1
  | left _ _ _ _ ih => exact (ih ht.2.2.1).trans ht.1
  | right _ _ _ _ ih => exact (ih ht.2.2.2).trans ht.2.1

/-- No node of an ordered tree lies above the root. -/
theorem Subtree.slot_le {t u : Tree Place} (hu : Subtree u t) (ht : t.Ordered) :
    u.tag.slot ≤ t.tag.slot := by
  induction hu with
  | refl => exact Nat.le_refl _
  | negate _ _ ih => exact Nat.le_trans (ih ht.2) (Nat.le_of_lt ht.1)
  | left _ _ _ _ ih => exact Nat.le_trans (ih ht.2.2.1) (Nat.le_of_lt ht.1)
  | right _ _ _ _ ih => exact Nat.le_trans (ih ht.2.2.2) (Nat.le_of_lt ht.2.1)

end Tree

namespace Arena

open Abacus.Tree (Subtree)

/-- The arena that ends with a slot, so that the node there is its root. -/
def upTo (a : Arena) (slot : Nat) : Arena :=
    { a with nodes := a.nodes.extract 0 (slot + 1) }

/-- The node in a slot is a division by the node in another one, and that is zero for the
arguments. -/
structure ZeroDivisor (a : Arena) (args : List Int64) (slot divisor : Nat) : Prop where
  reachable : a.Reachable slot
  division : ∃ left, kindAt? a.nodes slot = some (.binary .div left divisor)
  value : (a.upTo divisor).evaluate args = .ok 0

variable {a : Arena} {args : List Int64} {t u : Tree Place}

/-- The slots up to a node store the subtree of that node. -/
theorem Stores.upTo (h : a.Stores t) (hu : Subtree u t) :
    (a.upTo u.tag.slot).Stores u := by
  have hholds := h.holds.subtree hu
  have hordered := hu.ordered h.wellPlaced.ordered
  have hlt : u.tag.slot < a.nodes.size := hholds.lt_size u.slot_mem_slots
  refine ⟨?_, hu.wellPlaced h.wellPlaced, ?_,
    fun index hindex => h.params index (hu.params_subset hindex)⟩
  · simp only [Arena.root, Arena.size, Arena.upTo, Array.size_extract]
    omega
  · intro e he
    obtain ⟨w, hw, hslot⟩ := Tree.mem_slots_iff.mp (List.mem_map_of_mem he)
    have hle : e.1.slot < u.tag.slot + 1 :=
      Nat.lt_succ_of_le (hslot ▸ hw.slot_le hordered)
    rw [← hholds e he]
    simp only [Arena.upTo, Array.getElem?_extract, Nat.zero_add]
    rw [if_pos (by omega)]

/-- A division by zero in the stored tree is one in the arena. -/
theorem Stores.zeroDivisor (h : a.Stores t) (hlength : args.length = a.paramCount)
    {place : Place} {left right : Tree Place}
    (hsub : Subtree (.binary place .div left right) t) (hzero : right.eval args = .ok 0) :
    a.ZeroDivisor args place.slot right.tag.slot where
  reachable := h.reachable_iff_subtree.mpr ⟨_, hsub, rfl⟩
  division := ⟨_, (h.holds.subtree hsub).kindAt?_eq⟩
  value := (h.upTo ((Subtree.right _ _ _ (.refl right)).trans hsub)).evaluate_of_eval_ok
    hlength hzero

/-- Where an arena divides by zero, the stored tree does so, at the division with the span
of the error. -/
theorem Stores.exists_eval_error (h : a.Stores t) {span : Option Span}
    {offset : Option Nat}
    (herror : a.evaluate args = .error (.divisionByZero span offset)) :
    args.length = a.paramCount ∧ ∃ place, t.eval args = .error place ∧
      span = some place.span := by
  have hlength : args.length = a.paramCount := by
    by_contra hne
    rw [evaluate_of_ne_length hne] at herror
    cases herror
  refine ⟨hlength, ?_⟩
  rw [h.evaluate_eq hlength] at herror
  cases heval : t.eval args with
  | ok v =>
    rw [heval] at herror
    cases herror
  | error place =>
    rw [heval] at herror
    obtain ⟨rfl, -⟩ := ExecutionError.divisionByZero.inj (Except.error.inj herror)
    exact ⟨place, rfl, rfl⟩

end Arena

end Abacus
