import Abacus.Arena.Evaluate
import Abacus.Proofs.Placement

set_option autoImplicit false

/-!
# Evaluation of an arena against its tree

The arena is evaluated slot by slot in post-order, with one table for the results.  The
order comes from a walk with a stack of pending slots, which does not know of trees.  For
an arena that stores a tree it is the order of the tree, and the evaluation computes the
tree: the results of a subtree are complete before the node above it reads them, later
slots do not overwrite them, and the first division by zero that the traversal meets is
the one at which `Tree.eval` stops.

Main statements:

* `Arena.visit_eq`: what a pending slot of a tree comes to.
* `Arena.Stores.postOrder_eq`: the traversal visits the slots of the stored tree.
* `Arena.Stores.evaluate_of_eval_ok`, `Arena.Stores.evaluate_of_eval_error`: evaluation
  agrees with `Tree.eval`, and it stops at the division that `Tree.eval` names.
-/

namespace Abacus.Arena

/-! ## The order of the slots -/

/-- A look at the slot of a tree leads to visits of all the slots of the tree, and to what
is pending behind it. -/
theorem visit_eq {nodes : Array Node} {t : Tree Place} (hordered : t.Ordered)
    (hholds : Holds nodes t) (visited : List Nat) (pending : List (Nat × Bool)) :
    visit nodes visited ((t.tag.slot, false) :: pending) =
      visit nodes (t.slots.reverse ++ visited) pending := by
  have hkind := hholds.kindAt?_eq
  induction t generalizing visited pending with
  | literal place value =>
    rw [visit, hkind]
    rfl
  | param place index =>
    rw [visit, hkind]
    rfl
  | negate place operand ih =>
    obtain ⟨hlt, hbelow⟩ := hordered
    obtain ⟨-, hoperand⟩ := holds_negate.mp hholds
    rw [visit, hkind]
    calc (if operand.tag.slot < place.slot then _ else _)
        = visit nodes visited
          ((operand.tag.slot, false) :: (place.slot, true) :: pending) :=
          if_pos hlt
      _ = visit nodes (place.slot :: (operand.slots.reverse ++ visited)) pending := by
          rw [ih hbelow hoperand _ _ hoperand.kindAt?_eq, visit]
      _ = visit nodes ((Tree.negate place operand).slots.reverse ++ visited)
        pending := by simp
  | binary place op left right ihl ihr =>
    obtain ⟨hltl, hltr, hbelowl, hbelowr⟩ := hordered
    obtain ⟨-, hl, hr⟩ := holds_binary.mp hholds
    rw [visit, hkind]
    calc (if left.tag.slot < place.slot ∧ right.tag.slot < place.slot then _ else _)
        = visit nodes visited
            ((left.tag.slot, false) :: (right.tag.slot, false) :: (place.slot, true) ::
              pending) :=
          if_pos ⟨hltl, hltr⟩
      _ = visit nodes
            (place.slot :: (right.slots.reverse ++ (left.slots.reverse ++ visited)))
              pending := by
          rw [ihl hbelowl hl _ _ hl.kindAt?_eq, ihr hbelowr hr _ _ hr.kindAt?_eq, visit]
      _ = visit nodes ((Tree.binary place op left right).slots.reverse ++ visited)
        pending := by
          simp

/-- The traversal of an arena visits the slots of the tree that it stores, and no
others. -/
theorem Stores.postOrder_eq {a : Arena} {t : Tree Place} (h : a.Stores t) :
    a.postOrder = t.slots := by
  have hnonempty : ¬ a.isEmpty = true := by
    have hlt := h.holds.lt_size t.slot_mem_slots
    simp only [isEmpty, Array.isEmpty_iff_size_eq_zero]
    omega
  rw [postOrder, if_neg hnonempty, ← h.root, visit_eq h.wellPlaced.ordered h.holds, visit,
    List.append_nil, List.reverse_reverse]

/-! ## Computing a run of slots -/

/-- Computes slots one after the other. -/
def computeAll (a : Arena) (args : List Int64) (slots : List Nat)
    (results : Array Int64) :
    Except ExecutionError (Array Int64) :=
  slots.foldlM (a.computeSlot args) results

variable {a : Arena} {args : List Int64}

theorem computeAll_append_ok {slots more : List Nat} {results results' : Array Int64}
    (h : a.computeAll args slots results = .ok results') :
    a.computeAll args (slots ++ more) results = a.computeAll args more results' := by
  rw [computeAll] at h
  rw [computeAll, List.foldlM_append, h]
  rfl

theorem computeAll_append_error {slots more : List Nat} {results : Array Int64}
    {e : ExecutionError} (h : a.computeAll args slots results = .error e) :
    a.computeAll args (slots ++ more) results = .error e := by
  rw [computeAll] at h
  rw [computeAll, List.foldlM_append, h]
  rfl

theorem computeAll_singleton (slot : Nat) (results : Array Int64) :
    a.computeAll args [slot] results = a.computeSlot args results slot := by
  simp [computeAll]

theorem computeSlot_ok {slot : Nat} {node : Node} {results : Array Int64} {value : Int64}
    (hnode : a.nodes[slot]? = some node)
    (hvalue : nodeValue args results node = .ok value) :
    a.computeSlot args results slot = .ok (results.setIfInBounds slot value) := by
  simp only [computeSlot, hnode, hvalue]
  rfl

theorem computeSlot_error {slot : Nat} {node : Node} {results : Array Int64}
    {e : ExecutionError} (hnode : a.nodes[slot]? = some node)
    (hvalue : nodeValue args results node = .error e) :
    a.computeSlot args results slot = .error e := by
  simp only [computeSlot, hnode, hvalue]
  rfl

theorem nodeValue_negate {results : Array Int64} {operand : Nat} {span : Span}
    {value : Int64} (h : results[operand]? = some value) :
    nodeValue args results ⟨.negate operand, span⟩ = .ok (-value) := by
  simp only [nodeValue, result, h]
  rfl

theorem nodeValue_binary {results : Array Int64} {op : Operator} {left right : Nat}
    {span : Span} {l r : Int64} (hl : results[left]? = some l)
    (hr : results[right]? = some r) :
    nodeValue args results ⟨.binary op left right, span⟩ =
      match op.compute? l r with
      | some value => .ok value
      | none => .error (.divisionByZero (some span) none) := by
  simp only [nodeValue, result, hl, hr]
  rfl

/-- The results after a tree was computed: its value is noted in the slot of its root, and
slots that the tree does not occupy are as before. -/
structure Computed (t : Tree Place) (value : Int64) (results results' : Array Int64) :
    Prop where
  size : results'.size = results.size
  noted : results'[t.tag.slot]? = some value
  frame : ∀ slot ∉ t.slots, results'[slot]? = results[slot]?

/-- Computing the root completes a tree whose nodes below were computed. -/
theorem Computed.intro {t : Tree Place} {value : Int64} {results before : Array Int64}
    (below : List Nat) (hslots : t.slots = below ++ [t.tag.slot])
    (hlt : t.tag.slot < results.size) (hsize : before.size = results.size)
    (hframe : ∀ slot ∉ below, before[slot]? = results[slot]?) :
    Computed t value results (before.setIfInBounds t.tag.slot value) := by
  refine ⟨?_, ?_, ?_⟩
  · rw [Array.size_setIfInBounds, hsize]
  · rw [Array.getElem?_setIfInBounds_self_of_lt (by omega)]
  · intro slot hslot
    rw [hslots, List.mem_append, List.mem_singleton, not_or] at hslot
    rw [Array.getElem?_setIfInBounds_ne (Ne.symm hslot.2), hframe slot hslot.1]

/-- The operands of a binary node are in different slots, so the left result is still
there when the right operand was computed. -/
theorem Computed.left_noted {place : Place} {op : Operator} {left right : Tree Place}
    {l r : Int64} {results results₁ results₂ : Array Int64}
    (hwell : (Tree.binary place op left right).WellPlaced)
    (hl : Computed left l results results₁) (hr : Computed right r results₁ results₂) :
    results₂[left.tag.slot]? = some l := by
  obtain ⟨-, -, hdisjoint⟩ := hwell.apart
  rw [hr.frame _ (hdisjoint left.slot_mem_slots), hl.noted]

/-- Where a tree has a value, computing its slots notes that value. -/
theorem computeAll_of_eval_ok {t : Tree Place} {results : Array Int64} {value : Int64}
    (hwell : t.WellPlaced) (hholds : Holds a.nodes t)
    (hparams : ∀ index ∈ t.params, index < args.length) (hsize : results.size = a.size)
    (h : t.eval args = .ok value) :
    ∃ results', a.computeAll args t.slots results = .ok results' ∧
      Computed t value results results' := by
  have hlt : t.tag.slot < results.size := hsize ▸ hholds.lt_size t.slot_mem_slots
  induction t generalizing results value with
  | literal place v =>
    obtain rfl := Except.ok.inj h
    refine ⟨_, ?_, Computed.intro [] rfl hlt rfl fun _ _ => rfl⟩
    rw [Tree.slots_literal, computeAll_singleton]
    exact computeSlot_ok hholds.tag rfl
  | param place index =>
    have hindex : index < args.length := hparams index List.mem_cons_self
    obtain rfl := Except.ok.inj h
    refine ⟨_, ?_, Computed.intro [] rfl hlt rfl fun _ _ => rfl⟩
    have hvalue :
        nodeValue args results ⟨.param index, place.span⟩ = .ok (args.getD index 0) := by
      simp [nodeValue, argument, hindex]
    rw [Tree.slots_param, computeAll_singleton]
    exact computeSlot_ok hholds.tag hvalue
  | negate place operand ih =>
    obtain ⟨hnode, hoperand⟩ := holds_negate.mp hholds
    obtain ⟨u, hu, rfl⟩ := Tree.eval_negate_eq_ok.mp h
    obtain ⟨results₁, hrun, hcomputed⟩ := ih hwell.operand hoperand hparams hsize hu
      (hsize ▸ hoperand.lt_size operand.slot_mem_slots)
    refine ⟨_, ?_, Computed.intro operand.slots (Tree.slots_negate _ _) hlt
      hcomputed.size hcomputed.frame⟩
    rw [Tree.slots_negate, computeAll_append_ok hrun, computeAll_singleton,
      computeSlot_ok hnode (nodeValue_negate hcomputed.noted)]
    rfl
  | binary place op left right ihl ihr =>
    obtain ⟨hnode, hleft, hright⟩ := holds_binary.mp hholds
    obtain ⟨l, r, hl, hr, hop⟩ := Tree.eval_binary_eq_ok.mp h
    simp only [Tree.params, List.mem_append] at hparams
    obtain ⟨results₁, hrun₁, hcomputed₁⟩ := ihl hwell.left hleft
      (fun index hindex => hparams index (Or.inl hindex)) hsize hl
      (hsize ▸ hleft.lt_size left.slot_mem_slots)
    have hsize₁ : results₁.size = a.size := hcomputed₁.size.trans hsize
    obtain ⟨results₂, hrun₂, hcomputed₂⟩ := ihr hwell.right hright
      (fun index hindex => hparams index (Or.inr hindex)) hsize₁ hr
      (hsize₁ ▸ hright.lt_size right.slot_mem_slots)
    have hvalue :
        nodeValue args results₂ ⟨.binary op left.tag.slot right.tag.slot, place.span⟩ =
        .ok value := by
      rw [nodeValue_binary (hcomputed₁.left_noted hwell hcomputed₂) hcomputed₂.noted, hop]
    refine ⟨_, ?_, Computed.intro (left.slots ++ right.slots) (Tree.slots_binary _ _ _ _)
      hlt (hcomputed₂.size.trans hcomputed₁.size) ?_⟩
    · rw [Tree.slots_binary,
        computeAll_append_ok ((computeAll_append_ok hrun₁).trans hrun₂),
        computeAll_singleton, computeSlot_ok hnode hvalue]
      rfl
    · intro slot hslot
      rw [List.mem_append, not_or] at hslot
      rw [hcomputed₂.frame slot hslot.2, hcomputed₁.frame slot hslot.1]

/-- Where a tree fails, its slots up to the failing division are computed, and then the
division fails. -/
theorem computeAll_of_eval_error {t : Tree Place} {results : Array Int64} {place : Place}
    (hwell : t.WellPlaced) (hholds : Holds a.nodes t)
    (hparams : ∀ index ∈ t.params, index < args.length) (hsize : results.size = a.size)
    (h : t.eval args = .error place) :
    ∃ before after left right results', t.entries = before ++ (place,
      .binary .div left right) :: after ∧
      a.computeAll args (before.map (·.1.slot)) results = .ok results' ∧
      a.computeSlot args results' place.slot =
        .error (.divisionByZero (some place.span) none) := by
  induction t generalizing results with
  | literal => cases h
  | param => cases h
  | negate tag operand ih =>
    obtain ⟨-, hoperand⟩ := holds_negate.mp hholds
    obtain ⟨before, after, left, right, results', hentries, hrun, hfail⟩ :=
      ih hwell.operand hoperand hparams hsize (Tree.eval_negate_eq_error.mp h)
    refine ⟨before, after ++ [(tag, .negate operand.tag.slot)], left, right, results',
      ?_, hrun, hfail⟩
    simp [Tree.entries, hentries]
  | binary tag op left right ihl ihr =>
    obtain ⟨hnode, hleft, hright⟩ := holds_binary.mp hholds
    simp only [Tree.params, List.mem_append] at hparams
    have hparamsl := fun index hindex => hparams index (Or.inl hindex)
    have hparamsr := fun index hindex => hparams index (Or.inr hindex)
    rcases Tree.eval_binary_eq_error.mp h with hl | ⟨l, hl, hr⟩ | ⟨l, r, hl, hr, hop, rfl⟩
    · obtain ⟨before, after, x, y, results', hentries, hrun, hfail⟩ :=
        ihl hwell.left hleft hparamsl hsize hl
      refine ⟨before,
        after ++ right.entries ++ [(tag, .binary op left.tag.slot right.tag.slot)], x, y,
        results', ?_, hrun, hfail⟩
      simp [Tree.entries, hentries]
    · obtain ⟨results₁, hrun₁, hcomputed₁⟩ :=
        computeAll_of_eval_ok hwell.left hleft hparamsl hsize hl
      obtain ⟨before, after, x, y, results', hentries, hrun, hfail⟩ :=
        ihr hwell.right hright hparamsr (hcomputed₁.size.trans hsize) hr
      refine ⟨left.entries ++ before,
        after ++ [(tag, .binary op left.tag.slot right.tag.slot)], x, y, results', ?_,
        ?_, hfail⟩
      · simp [Tree.entries, hentries]
      · rw [List.map_append]
        exact (computeAll_append_ok hrun₁).trans hrun
    · obtain ⟨results₁, hrun₁, hcomputed₁⟩ :=
        computeAll_of_eval_ok hwell.left hleft hparamsl hsize hl
      obtain ⟨results₂, hrun₂, hcomputed₂⟩ :=
        computeAll_of_eval_ok hwell.right hright hparamsr (hcomputed₁.size.trans hsize) hr
      obtain ⟨rfl, -⟩ := Operator.compute?_eq_none_iff.mp hop
      refine ⟨left.entries ++ right.entries, [], left.tag.slot, right.tag.slot, results₂,
        rfl, ?_, ?_⟩
      · rw [List.map_append]
        exact (computeAll_append_ok hrun₁).trans hrun₂
      · refine computeSlot_error hnode ?_
        rw [nodeValue_binary (hcomputed₁.left_noted hwell hcomputed₂) hcomputed₂.noted,
          hop]

/-! ## Evaluating an arena -/

theorem evaluate_eq (a : Arena) (args : List Int64) :
    a.evaluate args =
      if a.paramCount = args.length then
        match a.computeAll args a.postOrder (Array.replicate a.size 0) with
        | .ok results => result results a.root
        | .error e => .error e
      else .error (.argumentCount a.paramCount args.length) := by
  unfold evaluate checkArgumentCount
  split
  · show (a.computeAll args a.postOrder (Array.replicate a.size 0) >>= fun results =>
      result results a.root) = _
    cases a.computeAll args a.postOrder (Array.replicate a.size 0) <;> rfl
  · rfl

theorem evaluate_of_ne_length (h : args.length ≠ a.paramCount) :
    a.evaluate args = .error (.argumentCount a.paramCount args.length) := by
  rw [evaluate_eq, if_neg (Ne.symm h)]

/-- An arena evaluates to the value of the tree that it stores. -/
theorem Stores.evaluate_of_eval_ok {t : Tree Place} {value : Int64} (hstores : a.Stores t)
    (hlength : args.length = a.paramCount) (h : t.eval args = .ok value) :
    a.evaluate args = .ok value := by
  have hsize : (Array.replicate a.size (0 : Int64)).size = a.size := Array.size_replicate
  obtain ⟨results, hrun, hcomputed⟩ :=
    computeAll_of_eval_ok hstores.wellPlaced hstores.holds
    (fun index hindex => hlength ▸ hstores.params index hindex) hsize h
  rw [evaluate_eq, if_pos hlength.symm, hstores.postOrder_eq, hrun]
  simp only [result, ← hstores.root, hcomputed.noted]

/-- Where the stored tree fails, the evaluation computes the slots before the failing
division and stops there, with the span of that division. -/
theorem Stores.evaluate_of_eval_error {t : Tree Place} {place : Place}
    (hstores : a.Stores t) (hlength : args.length = a.paramCount)
    (h : t.eval args = .error place) :
    a.evaluate args = .error (.divisionByZero (some place.span) none) ∧
      ∃ before after left right results,
        t.entries = before ++ (place, .binary .div left right) :: after ∧
        a.computeAll args (before.map (·.1.slot)) (Array.replicate a.size 0) =
          .ok results ∧
        a.computeSlot args results place.slot =
          .error (.divisionByZero (some place.span) none) := by
  have hsize : (Array.replicate a.size (0 : Int64)).size = a.size := Array.size_replicate
  obtain ⟨before, after, left, right, results, hentries, hrun, hfail⟩ :=
    computeAll_of_eval_error hstores.wellPlaced hstores.holds
      (fun index hindex => hlength ▸ hstores.params index hindex) hsize h
  refine ⟨?_, before, after, left, right, results, hentries, hrun, hfail⟩
  have hslots :
      t.slots = before.map (·.1.slot) ++ ([place.slot] ++ after.map (·.1.slot)) := by
    simp [Tree.slots, hentries]
  have hstop : a.computeAll args ([place.slot] ++ after.map (·.1.slot)) results =
      .error (.divisionByZero (some place.span) none) :=
    computeAll_append_error (by rw [computeAll_singleton, hfail])
  rw [evaluate_eq, if_pos hlength.symm, hstores.postOrder_eq, hslots,
    computeAll_append_ok hrun, hstop]

/-- An arena evaluates to the value of the tree that it stores, or to the span of the
division at which that fails. -/
theorem Stores.evaluate_eq {t : Tree Place} (hstores : a.Stores t)
    (hlength : args.length = a.paramCount) :
    a.evaluate args =
      (t.eval args).mapError fun place => .divisionByZero (some place.span) none := by
  cases heval : t.eval args with
  | ok v => exact hstores.evaluate_of_eval_ok hlength heval
  | error place => exact (hstores.evaluate_of_eval_error hlength heval).1

end Abacus.Arena
