import Abacus.Proofs.Reachability
import Abacus.Proofs.Strategies

set_option autoImplicit false

/-!
# The walk over an arena is a recursion over its tree

The walk keeps its own stack of pending slots and a table of results that begins with
zeros.  A result that was read too early would go unnoticed, and so would a slot that
nothing refers to any more.  Neither happens: whatever an accepted source is simplified
to, operands are computed before the nodes that use them, and the outcome is that of the
recursive evaluation of the tree below the last slot.

Main statements:

* `Arena.Stores.precedes`: the walk computes the operands of a node before the node.
* `Arena.Stores.of_reachable`: slots that the root does not reach do not belong to the
  stored tree.
* `Arena.evaluatesTree_iterate_simplify`: all of it for what comes of an accepted source.
-/

namespace Abacus

/-- In front of every entry there are entries for all of its operands. -/
def OperandsFirst (entries : List (Place × Arena.Kind)) : Prop :=
  ∀ before e after, entries = before ++ e :: after →
    ∀ operand ∈ e.2.operands, operand ∈ before.map (·.1.slot)

namespace OperandsFirst

variable {first second : List (Place × Arena.Kind)}

theorem nil : OperandsFirst [] := fun _ _ _ h => by simp at h

theorem append (hfirst : OperandsFirst first) (hsecond : OperandsFirst second) :
    OperandsFirst (first ++ second) := by
  intro before e after h operand hoperand
  rcases List.append_eq_append_iff.mp h with ⟨more, rfl, hsplit⟩ | ⟨more, hsplit, hmore⟩
  · rw [List.map_append]
    exact List.mem_append_right _ (hsecond _ _ _ hsplit operand hoperand)
  · cases more with
    | nil =>
      -- The second part begins with the entry, which has therefore no operands.
      cases hsecond [] e after hmore.symm operand hoperand
    | cons e' more =>
      obtain ⟨rfl, -⟩ := List.cons.inj hmore
      exact hfirst _ _ _ hsplit operand hoperand

theorem concat {e : Place × Arena.Kind} (hfirst : OperandsFirst first)
    (he : ∀ operand ∈ e.2.operands, operand ∈ first.map (·.1.slot)) :
    OperandsFirst (first ++ [e]) := by
  intro before e' after h operand hoperand
  rcases List.eq_nil_or_concat after with rfl | ⟨after, last, rfl⟩
  · obtain ⟨rfl, hlast⟩ := List.append_inj' h rfl
    obtain rfl := List.singleton_inj.mp hlast
    exact he operand hoperand
  · rw [List.concat_eq_append, ← List.cons_append, ← List.append_assoc] at h
    obtain ⟨hsplit, -⟩ := List.append_inj' h rfl
    exact hfirst _ _ _ hsplit operand hoperand

end OperandsFirst

theorem Tree.operandsFirst (t : Tree Place) : OperandsFirst t.entries := by
  induction t with
  | literal | param => exact OperandsFirst.nil.concat fun _ h => by cases h
  | negate place operand ih =>
    refine ih.concat fun slot h => ?_
    obtain rfl := List.mem_singleton.mp h
    exact operand.slot_mem_slots
  | binary place op left right ihl ihr =>
    refine (ihl.append ihr).concat fun slot h => ?_
    rw [List.map_append, List.mem_append]
    rcases List.mem_pair.mp h with rfl | rfl
    · exact Or.inl left.slot_mem_slots
    · exact Or.inr right.slot_mem_slots

namespace Arena

variable {a b : Arena} {t : Tree Place} {args : List Int64}

/-- The walk computes the operands of a node before the node. -/
theorem Stores.precedes (h : a.Stores t) {before after : List Nat} {slot : Nat}
    (hvisited : a.postOrder = before ++ slot :: after) :
    ∀ operand ∈ operandsAt a.nodes slot, operand ∈ before := by
  rw [h.postOrder_eq] at hvisited
  obtain ⟨first, second, hentries, rfl, hsecond⟩ := List.map_eq_append_iff.mp hvisited
  obtain ⟨e, more, rfl, rfl, rfl⟩ := List.map_eq_cons_iff.mp hsecond
  rw [h.holds.operandsAt_entry (hentries ▸ List.mem_append_right _ List.mem_cons_self)]
  exact t.operandsFirst first e more hentries

/-- An arena that has the same nodes where the root reaches them stores the same tree. -/
theorem Stores.of_reachable (h : a.Stores t) (hcount : b.paramCount = a.paramCount)
    (hsize : b.size = a.size)
    (hnodes : ∀ slot, a.Reachable slot → b.nodes[slot]? = a.nodes[slot]?) :
    b.Stores t where
  root := by rw [h.root, Arena.root, Arena.root, hsize]
  wellPlaced := h.wellPlaced
  holds e he := by
    rw [hnodes _ (h.reachable_iff.mpr (List.mem_map_of_mem he))]
    exact h.holds e he
  params index hindex := hcount ▸ h.params index hindex

/-- The number of arguments and the stored tree decide the outcome of an evaluation. -/
theorem Stores.evaluate_congr (ha : a.Stores t) (hb : b.Stores t)
    (hcount : b.paramCount = a.paramCount) : b.evaluate args = a.evaluate args := by
  by_cases hlength : args.length = a.paramCount
  · rw [hb.evaluate_eq (hlength.trans hcount.symm), ha.evaluate_eq hlength]
  · rw [evaluate_of_ne_length (hcount.symm ▸ hlength),
      evaluate_of_ne_length hlength, hcount]

/-- Evaluating an arena for some arguments is a recursion over the tree that it stores. -/
structure EvaluatesTree (a : Arena) (args : List Int64) : Prop where
  /-- The number of arguments is refused exactly if it is not that of the parameters. -/
  argumentCount :
    ∀ expected actual, a.evaluate args = .error (.argumentCount expected actual) ↔
    args.length ≠ a.paramCount ∧ expected = a.paramCount ∧ actual = args.length
  /-- No slot and no argument is read where there is none. -/
  noFault : ∀ e, a.evaluate args ≠ .error (.fault e)
  /-- Otherwise the outcome is that of the recursion over the tree below the last slot,
  and a division by zero is named by its span. -/
  tree : ∃ t, a.tree? = some t ∧ t.tag.slot + 1 = a.size ∧
    (args.length = a.paramCount →
      a.evaluate args = (t.eval args).mapError fun place =>
      .divisionByZero (some place.span) none)
  /-- No result is read before it was computed. -/
  computed : ∀ before slot after, a.postOrder = before ++ slot :: after →
    ∀ operand ∈ operandsAt a.nodes slot, operand ∈ before
  /-- What stands in slots that the root does not reach has no influence. -/
  reachable : ∀ b : Arena, b.paramCount = a.paramCount → b.size = a.size →
    (∀ slot, a.Reachable slot → b.nodes[slot]? = a.nodes[slot]?) →
      b.evaluate args = a.evaluate args

theorem Stores.evaluatesTree (h : a.Stores t) (args : List Int64) :
    a.EvaluatesTree args where
  argumentCount expected actual := by
    by_cases hlength : args.length = a.paramCount
    · rw [h.evaluate_eq hlength]
      cases t.eval args <;> simp [Except.mapError, hlength]
    · rw [evaluate_of_ne_length hlength]
      simp [hlength, eq_comm]
  noFault e := by
    by_cases hlength : args.length = a.paramCount
    · rw [h.evaluate_eq hlength]
      cases t.eval args <;> simp [Except.mapError]
    · rw [evaluate_of_ne_length hlength]
      simp
  tree := by
    have hlt : t.tag.slot < a.size := h.holds.lt_size t.slot_mem_slots
    refine ⟨t, h.tree?_eq, ?_, h.evaluate_eq⟩
    rw [h.root, Arena.root] at hlt ⊢
    omega
  computed _ _ _ := h.precedes
  reachable _ hcount hsize hnodes :=
    h.evaluate_congr (h.of_reachable hcount hsize hnodes) hcount

variable {source : String} {names : List String} {maxDepth : Nat}

/-- However often an accepted source is simplified, evaluating what comes of it is a
recursion over the tree below the last slot: the left operand first, then the right one,
up to the first division by zero. -/
theorem evaluatesTree_iterate_simplify (h : Arena.parse source names maxDepth = .ok a)
    (k : Nat) (args : List Int64) : (simplify^[k] a).EvaluatesTree args := by
  obtain ⟨t, ht⟩ := exists_stores_iterate h k
  exact ht.evaluatesTree args

/-- Simplifying `6/((x+1)+2)` leaves slots behind that nothing refers to, and they do not
matter for `-3`, where the divisor is zero. -/
theorem evaluatesTree_iterate_simplify_dead_slots :
    ∃ a, Arena.parse "6/((x+1)+2)" ["x"] 2 = .ok a ∧
      (simplify^[1] a).EvaluatesTree [-3] := by
  have hparse : Arena.parse "6/((x+1)+2)" ["x"] 2 =
      .ok ⟨#[⟨.param 0, ⟨4, 5⟩⟩, ⟨.literal 1, ⟨6, 7⟩⟩, ⟨.binary .add 0 1, ⟨4, 7⟩⟩,
        ⟨.literal 2, ⟨9, 10⟩⟩, ⟨.literal 6, ⟨0, 1⟩⟩, ⟨.binary .add 2 3, ⟨4, 10⟩⟩,
        ⟨.binary .div 4 5, ⟨0, 10⟩⟩], 1⟩ := by
    decide +kernel
  exact ⟨_, hparse, evaluatesTree_iterate_simplify hparse 1 [-3]⟩

end Arena

end Abacus
