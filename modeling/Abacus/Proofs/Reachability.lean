import Abacus.Proofs.Placement
import Mathlib.Data.List.Pairwise

set_option autoImplicit false

/-!
# The nodes that the root reaches

What an arena stores is found by following references from the root.  `Arena.Reachable`
says this of single slots, and `Arena.WellFormed` what a traversal or an overwritten slot
relies on: the nodes that the root reaches form a tree, with operands in lower slots and
spans inside the spans around them.

Main statements:

* `Arena.Stores.reachable_iff`: the root reaches exactly the slots of the stored tree.
* `Arena.Stores.wellFormed`: an arena that stores a tree with nested spans is well-formed.
-/

namespace Abacus

namespace Arena

/-- The slots that a node refers to, the left operand first. -/
def Kind.operands : Kind → List Nat
  | .literal _ => []
  | .param _ => []
  | .negate operand => [operand]
  | .binary _ left right => [left, right]

/-- The slots that the node in a slot refers to. -/
def operandsAt (nodes : Array Node) (slot : Nat) : List Nat :=
  (kindAt? nodes slot).elim [] Kind.operands

/-- The slots to which references lead from the root. -/
inductive Reachable (a : Arena) : Nat → Prop
  | root : Reachable a a.root
  | operand {slot operand : Nat} (h : Reachable a slot)
    (hmem : operand ∈ operandsAt a.nodes slot) :
    Reachable a operand

/-- The nodes that the root reaches form a tree. -/
structure WellFormed (a : Arena) : Prop where
  /-- No reference leads out of the table. -/
  inRange : ∀ slot, a.Reachable slot → slot < a.size
  /-- Operands lie below the nodes that use them. -/
  descending :
    ∀ slot, a.Reachable slot → ∀ operand ∈ operandsAt a.nodes slot, operand < slot
  /-- A node other than the root is an operand of one node, in one position. -/
  unshared : ∀ slot, a.Reachable slot → slot ≠ a.root →
    ∃! use : Nat × Nat, a.Reachable use.1 ∧ (operandsAt a.nodes use.1)[use.2]? = some slot
  /-- Every parameter is one of those that the arena was read against. -/
  params : ∀ slot index, a.Reachable slot → kindAt? a.nodes slot = some (.param index) →
    index < a.paramCount
  /-- The span of a node encloses the spans of its operands. -/
  nested : ∀ slot, a.Reachable slot → ∀ operand ∈ operandsAt a.nodes slot,
    (placeAt a.nodes operand).span.Within (placeAt a.nodes slot).span

end Arena

namespace Tree

/-! ## Subtrees -/

/-- The first tree is the second one or stands below its root. -/
inductive Subtree {α : Type} : Tree α → Tree α → Prop
  | refl (t : Tree α) : Subtree t t
  | negate {u t : Tree α} (tag : α) (h : Subtree u t) : Subtree u (negate tag t)
  | left {u l : Tree α} (tag : α) (op : Operator) (r : Tree α) (h : Subtree u l) :
    Subtree u (binary tag op l r)
  | right {u r : Tree α} (tag : α) (op : Operator) (l : Tree α) (h : Subtree u r) :
    Subtree u (binary tag op l r)

/-- What passes from a tree to its operands passes to its subtrees. -/
theorem Subtree.inherit {α : Type} {P : Tree α → Prop} {t u : Tree α} (h : Subtree u t)
    (negate : ∀ tag t, P (.negate tag t) → P t)
    (left : ∀ tag op l r, P (.binary tag op l r) → P l)
    (right : ∀ tag op l r, P (.binary tag op l r) → P r) (ht : P t) : P u := by
  induction h with
  | refl => exact ht
  | negate tag _ ih => exact ih (negate tag _ ht)
  | left tag op r _ ih => exact ih (left tag op _ r ht)
  | right tag op l _ ih => exact ih (right tag op l _ ht)

theorem Subtree.trans {α : Type} {t u w : Tree α} (hw : Subtree w u) (hu : Subtree u t) :
    Subtree w t := by
  induction hu with
  | refl => exact hw
  | negate tag _ ih => exact .negate tag ih
  | left tag op r _ ih => exact .left tag op r ih
  | right tag op l _ ih => exact .right tag op l ih

variable {t u : Tree Place}

theorem Subtree.ordered (h : Subtree u t) (ht : t.Ordered) : u.Ordered :=
  h.inherit (fun _ _ h => h.2) (fun _ _ _ _ h => h.2.2.1) (fun _ _ _ _ h => h.2.2.2) ht

theorem Subtree.nested (h : Subtree u t) (ht : t.Nested Place.span) :
    u.Nested Place.span :=
  h.inherit (P := Nested Place.span) (fun _ _ h => h.2) (fun _ _ _ _ h => h.2.2.1)
    (fun _ _ _ _ h => h.2.2.2) ht

theorem Subtree.wellPlaced (h : Subtree u t) (ht : t.WellPlaced) : u.WellPlaced :=
  h.inherit (fun _ _ h => h.operand) (fun _ _ _ _ h => h.left)
    (fun _ _ _ _ h => h.right) ht

theorem Subtree.params_subset {α : Type} {t u : Tree α} (h : Subtree u t) :
    u.params ⊆ t.params := by
  induction h with
  | refl => exact fun _ h => h
  | negate _ _ ih => exact ih
  | left _ _ _ _ ih => exact fun _ h => List.mem_append_left _ (ih h)
  | right _ _ _ _ ih => exact fun _ h => List.mem_append_right _ (ih h)

/-- A tree occupies the slots of the roots of its subtrees. -/
theorem mem_slots_iff {slot : Nat} :
    slot ∈ t.slots ↔ ∃ u, Subtree u t ∧ u.tag.slot = slot := by
  constructor
  · intro h
    induction t with
    | literal place v => exact ⟨_, .refl _, (List.mem_singleton.mp h).symm⟩
    | param place i => exact ⟨_, .refl _, (List.mem_singleton.mp h).symm⟩
    | negate place operand ih =>
      rw [slots_negate, List.mem_append, List.mem_singleton] at h
      rcases h with h | rfl
      · obtain ⟨u, hu, rfl⟩ := ih h
        exact ⟨u, .negate _ hu, rfl⟩
      · exact ⟨_, .refl _, rfl⟩
    | binary place op left right ihl ihr =>
      rw [slots_binary, List.mem_append, List.mem_append, List.mem_singleton] at h
      rcases h with (h | h) | rfl
      · obtain ⟨u, hu, rfl⟩ := ihl h
        exact ⟨u, .left _ _ _ hu, rfl⟩
      · obtain ⟨u, hu, rfl⟩ := ihr h
        exact ⟨u, .right _ _ _ hu, rfl⟩
      · exact ⟨_, .refl _, rfl⟩
  · rintro ⟨u, hu, rfl⟩
    induction hu with
    | refl => exact u.slot_mem_slots
    | negate _ _ ih => simp [ih]
    | left _ _ _ _ ih => simp [ih]
    | right _ _ _ _ ih => simp [ih]

/-- The slots that a node refers to are those of its operands. -/
theorem exists_operand_of_mem {operand : Nat} (h : operand ∈ u.kind.operands)
    (hu : Subtree u t) :
    ∃ w, Subtree w t ∧ w.tag.slot = operand ∧ (u.Ordered → operand < u.tag.slot) ∧
      (u.Nested Place.span → w.tag.span.Within u.tag.span) := by
  cases u with
  | literal => simp [kind, Arena.Kind.operands] at h
  | param => simp [kind, Arena.Kind.operands] at h
  | negate place w =>
    simp only [kind, Arena.Kind.operands, List.mem_singleton] at h
    exact ⟨w, (Subtree.negate _ (.refl w)).trans hu, h.symm, fun ho => h ▸ ho.1,
      fun hn => hn.1⟩
  | binary place op l r =>
    simp only [kind, Arena.Kind.operands, List.mem_cons, List.not_mem_nil, or_false] at h
    rcases h with h | h
    · exact ⟨l, (Subtree.left _ _ _ (.refl l)).trans hu, h.symm, fun ho => h ▸ ho.1,
        fun hn => hn.1⟩
    · exact ⟨r, (Subtree.right _ _ _ (.refl r)).trans hu, h.symm, fun ho => h ▸ ho.2.1,
        fun hn => hn.2.1⟩

/-! ## References -/

/-- The slots that the nodes of a tree refer to. -/
def references (t : Tree Place) : List Nat := t.entries.flatMap (·.2.operands)

/-- Every slot of a tree is referred to once, but for that of the root. -/
theorem references_perm (t : Tree Place) :
    (t.references ++ [t.tag.slot]).Perm t.slots := by
  induction t with
  | literal => exact List.Perm.refl _
  | param => exact List.Perm.refl _
  | negate place operand ih =>
    have hreferences :
        (negate place operand).references = operand.references ++ [operand.tag.slot] := by
      simp [references, entries, Arena.Kind.operands]
    rw [slots_negate, hreferences]
    exact ih.append_right _
  | binary place op left right ihl ihr =>
    have hreferences : (binary place op left right).references =
        left.references ++ right.references ++ [left.tag.slot, right.tag.slot] := by
      simp [references, entries, Arena.Kind.operands]
    rw [slots_binary, hreferences]
    refine List.Perm.append_right _ (List.perm_iff_count.mpr fun slot => ?_)
    have hl := ihl.count_eq slot
    have hr := ihr.count_eq slot
    simp only [List.count_append, List.count_cons, List.count_nil] at hl hr ⊢
    omega

theorem WellPlaced.nodup_references (h : t.WellPlaced) : t.references.Nodup :=
  (t.references_perm.nodup_iff.mpr h.nodup).of_append_left

/-- No two nodes refer to one slot. -/
theorem WellPlaced.reference_unique (h : t.WellPlaced) {e e' : Place × Arena.Kind}
    {slot : Nat} (he : e ∈ t.entries) (he' : e' ∈ t.entries) (hslot : slot ∈ e.2.operands)
    (hslot' : slot ∈ e'.2.operands) : e = e' := by
  have hdisjoint := (List.nodup_flatMap.mp h.nodup_references).2
  have : Std.Symm (Function.onFun List.Disjoint fun e : Place × Arena.Kind =>
      e.2.operands) :=
    ⟨fun _ _ h => List.disjoint_symm h⟩
  by_contra hne
  exact hdisjoint.forall he he' hne hslot hslot'

end Tree

/-! ## Reaching the slots of a tree -/

namespace Arena

open Abacus.Tree (Subtree)

variable {a : Arena} {t u : Tree Place}

theorem Holds.subtree {nodes : Array Node} (h : Holds nodes t) (hu : Subtree u t) :
    Holds nodes u :=
  hu.inherit (P := Holds nodes) (fun _ _ h => (holds_negate.mp h).2)
    (fun _ _ _ _ h => (holds_binary.mp h).2.1) (fun _ _ _ _ h => (holds_binary.mp h).2.2)
    h

theorem Holds.operandsAt_eq {nodes : Array Node} (h : Holds nodes t) :
    operandsAt nodes t.tag.slot = t.kind.operands := by
  rw [operandsAt, h.kindAt?_eq]
  rfl

theorem Reachable.subtree (hu : Subtree u t) (h : Holds a.nodes t)
    (ht : a.Reachable t.tag.slot) :
    a.Reachable u.tag.slot := by
  induction hu with
  | refl => exact ht
  | negate tag _ ih =>
    refine ih (holds_negate.mp h).2 (.operand ht ?_)
    rw [h.operandsAt_eq]
    exact List.mem_singleton_self _
  | left tag op r _ ih =>
    refine ih (holds_binary.mp h).2.1 (.operand ht ?_)
    rw [h.operandsAt_eq]
    exact List.mem_cons_self
  | right tag op l _ ih =>
    refine ih (holds_binary.mp h).2.2 (.operand ht ?_)
    rw [h.operandsAt_eq]
    exact List.mem_cons_of_mem _ List.mem_cons_self

/-- The root reaches the roots of the subtrees of the stored tree. -/
theorem Stores.reachable_iff_subtree (h : a.Stores t) {slot : Nat} :
    a.Reachable slot ↔ ∃ u, Subtree u t ∧ u.tag.slot = slot := by
  constructor
  · intro hslot
    induction hslot with
    | root => exact ⟨t, .refl t, h.root⟩
    | operand _ hmem ih =>
      obtain ⟨u, hu, rfl⟩ := ih
      rw [(h.holds.subtree hu).operandsAt_eq] at hmem
      obtain ⟨w, hw, hslot, -⟩ := Tree.exists_operand_of_mem hmem hu
      exact ⟨w, hw, hslot⟩
  · rintro ⟨u, hu, rfl⟩
    exact Reachable.subtree hu h.holds (h.root ▸ .root)

/-- The root reaches exactly the slots of the stored tree. -/
theorem Stores.reachable_iff (h : a.Stores t) {slot : Nat} :
    a.Reachable slot ↔ slot ∈ t.slots :=
  h.reachable_iff_subtree.trans Tree.mem_slots_iff.symm

theorem Holds.operandsAt_entry {nodes : Array Node} (h : Holds nodes t) {e : Place × Kind}
    (he : e ∈ t.entries) : operandsAt nodes e.1.slot = e.2.operands := by
  rw [operandsAt, kindAt?, h e he]
  rfl

/-- Every node of the stored tree, but for the root, is used once. -/
theorem Stores.unshared (h : a.Stores t) {slot : Nat} (hslot : a.Reachable slot)
    (hne : slot ≠ a.root) :
    ∃! use : Nat × Nat,
      a.Reachable use.1 ∧ (operandsAt a.nodes use.1)[use.2]? = some slot := by
  have hmem : slot ∈ t.references := by
    have hperm := t.references_perm.mem_iff.mpr (h.reachable_iff.mp hslot)
    rw [List.mem_append, List.mem_singleton, h.root] at hperm
    exact hperm.resolve_right hne
  obtain ⟨e, he, huse⟩ := List.mem_flatMap.mp hmem
  obtain ⟨i, hi⟩ := List.mem_iff_getElem?.mp huse
  refine ⟨(e.1.slot, i), ⟨h.reachable_iff.mpr (List.mem_map_of_mem he), ?_⟩, ?_⟩
  · rw [h.holds.operandsAt_entry he, hi]
  · rintro ⟨parent, j⟩ ⟨hparent, hj⟩
    obtain ⟨e', he', rfl⟩ := List.mem_map.mp (h.reachable_iff.mp hparent)
    rw [h.holds.operandsAt_entry he'] at hj
    obtain rfl := h.wellPlaced.reference_unique he he' huse (List.mem_of_getElem? hj)
    have hnodup := (List.nodup_flatMap.mp h.wellPlaced.nodup_references).1 e he
    obtain ⟨hlt, -⟩ := List.getElem?_eq_some_iff.mp hj
    have hposition : j = i := (List.getElem?_inj hlt hnodup).mp (hj.trans hi.symm)
    rw [hposition]

/-- An arena that stores a tree with nested spans is well-formed. -/
theorem Stores.wellFormed (h : a.Stores t) (hnested : t.Nested Place.span) :
    a.WellFormed where
  inRange slot hslot := h.holds.lt_size (h.reachable_iff.mp hslot)
  descending slot hslot operand hmem := by
    obtain ⟨u, hu, rfl⟩ := h.reachable_iff_subtree.mp hslot
    rw [(h.holds.subtree hu).operandsAt_eq] at hmem
    obtain ⟨_, -, -, hlt, -⟩ := Tree.exists_operand_of_mem hmem hu
    exact hlt (hu.ordered h.wellPlaced.ordered)
  unshared _ hslot hne := h.unshared hslot hne
  params slot index hslot hkind := by
    obtain ⟨u, hu, rfl⟩ := h.reachable_iff_subtree.mp hslot
    rw [(h.holds.subtree hu).kindAt?_eq] at hkind
    refine h.params index (hu.params_subset ?_)
    cases u <;> simp_all [Tree.kind, Tree.params]
  nested slot hslot operand hmem := by
    obtain ⟨u, hu, rfl⟩ := h.reachable_iff_subtree.mp hslot
    have hholds := h.holds.subtree hu
    rw [hholds.operandsAt_eq] at hmem
    obtain ⟨w, hw, rfl, -, hwithin⟩ := Tree.exists_operand_of_mem hmem hu
    rw [hholds.placeAt_eq, (h.holds.subtree hw).placeAt_eq]
    exact hwithin (hu.nested hnested)

end Arena

end Abacus
