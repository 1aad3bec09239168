import Abacus.Arena
import Abacus.Proofs.Meaning
import Mathlib.Data.List.Nodup

set_option autoImplicit false

/-!
# Trees in their places

An arena is a table, and the tree that it stores says which slot each node occupies.
`Tree.entries` lists the nodes of a tree as entries of a table, in post-order.  A tree is
*well placed* if operands lie below the nodes that use them and no slot is occupied twice;
then each of its entries can be overwritten without a change to the others.

Main statements:

* `Arena.treeAt?_eq_some_iff`: reading a table finds exactly the trees whose entries it
  holds.
* `Arena.getElem?_writeAll_of_mem`, `Arena.getElem?_writeAll_of_notMem`: what is read
  after a few slots were written.
-/

namespace Abacus

namespace Tree

/-- The kind of the topmost node in a table: its operands are given by their slots. -/
def kind : Tree Place → Arena.Kind
  | literal _ value => .literal value
  | param _ index => .param index
  | negate _ operand => .negate operand.tag.slot
  | binary _ op left right => .binary op left.tag.slot right.tag.slot

/-- The entries of a table that a tree stands for, in post-order. -/
def entries : Tree Place → List (Place × Arena.Kind)
  | literal place value => [(place, .literal value)]
  | param place index => [(place, .param index)]
  | negate place operand => operand.entries ++ [(place, .negate operand.tag.slot)]
  | binary place op left right =>
    left.entries ++ right.entries ++ [(place, .binary op left.tag.slot right.tag.slot)]

/-- The slots that a tree occupies, in post-order. -/
def slots (t : Tree Place) : List Nat := t.entries.map (·.1.slot)

/-- Operands lie in lower slots than the nodes that use them. -/
def Ordered : Tree Place → Prop
  | literal _ _ => True
  | param _ _ => True
  | negate place operand => operand.tag.slot < place.slot ∧ operand.Ordered
  | binary place _ left right =>
    left.tag.slot < place.slot ∧ right.tag.slot < place.slot ∧ left.Ordered ∧
      right.Ordered

/-- The span of a node encloses the spans of its operands, wherever the tags of a tree
have spans. -/
def Nested {α : Type} (span : α → Span) : Tree α → Prop
  | literal _ _ => True
  | param _ _ => True
  | negate tag operand => (span operand.tag).Within (span tag) ∧ operand.Nested span
  | binary tag _ left right =>
    (span left.tag).Within (span tag) ∧ (span right.tag).Within (span tag) ∧
      left.Nested span ∧ right.Nested span

@[simp] theorem slots_literal (place : Place) (value : Int64) :
    (literal place value).slots = [place.slot] := rfl

@[simp] theorem slots_param (place : Place) (index : Nat) :
    (param place index).slots = [place.slot] := rfl

@[simp] theorem slots_negate (place : Place) (operand : Tree Place) :
    (negate place operand).slots = operand.slots ++ [place.slot] := by
  simp [slots, entries]

@[simp] theorem slots_binary (place : Place) (op : Operator) (left right : Tree Place) :
    (binary place op left right).slots = left.slots ++ right.slots ++ [place.slot] := by
  simp [slots, entries]

theorem kind_eq_literal_iff {t : Tree Place} {value : Int64} :
    t.kind = .literal value ↔ t.literal? = some value := by
  cases t <;> simp [kind, literal?]

/-- The topmost node is the last entry. -/
theorem entries_eq_append (t : Tree Place) :
    ∃ below, t.entries = below ++ [(t.tag, t.kind)] := by
  cases t with
  | literal => exact ⟨[], rfl⟩
  | param => exact ⟨[], rfl⟩
  | negate _ operand => exact ⟨operand.entries, rfl⟩
  | binary _ _ left right => exact ⟨left.entries ++ right.entries, rfl⟩

theorem tag_mem_entries (t : Tree Place) : (t.tag, t.kind) ∈ t.entries := by
  obtain ⟨below, h⟩ := t.entries_eq_append
  simp [h]

theorem slot_mem_slots (t : Tree Place) : t.tag.slot ∈ t.slots :=
  List.mem_map_of_mem t.tag_mem_entries

/-- No node of an ordered tree is stored twice, and operands lie below the nodes that use
them. -/
structure WellPlaced (t : Tree Place) : Prop where
  ordered : t.Ordered
  nodup : t.slots.Nodup

/-- The second tree fits in the places of the first: it is well placed, has its root in
the same place, needs no other slots or parameters and keeps spans nested. -/
structure FitsIn (t u : Tree Place) : Prop where
  tag : u.tag = t.tag
  ordered : u.Ordered
  count : ∀ slot, u.slots.count slot ≤ t.slots.count slot
  params : ∀ index ∈ u.params, index ∈ t.params
  nested : t.Nested Place.span → u.Nested Place.span

theorem FitsIn.mem {t u : Tree Place} (h : t.FitsIn u) {slot : Nat}
    (hslot : slot ∈ u.slots) :
    slot ∈ t.slots :=
  List.count_pos_iff.mp (Nat.lt_of_lt_of_le (List.count_pos_iff.mpr hslot) (h.count slot))

theorem FitsIn.wellPlaced {t u : Tree Place} (h : t.FitsIn u) (ht : t.WellPlaced) :
    u.WellPlaced :=
  ⟨h.ordered, List.nodup_iff_count_le_one.mpr fun slot =>
    Nat.le_trans (h.count slot) (List.nodup_iff_count_le_one.mp ht.nodup slot)⟩

theorem FitsIn.refl {t : Tree Place} (h : t.Ordered) : t.FitsIn t :=
  ⟨rfl, h, fun _ => Nat.le_refl _, fun _ h => h, id⟩

theorem FitsIn.trans {t u w : Tree Place} (htu : t.FitsIn u) (huw : u.FitsIn w) :
    t.FitsIn w :=
  ⟨huw.tag.trans htu.tag, huw.ordered,
    fun slot => Nat.le_trans (huw.count slot) (htu.count slot),
    fun index h => htu.params index (huw.params index h), huw.nested ∘ htu.nested⟩

theorem FitsIn.negate {place : Place} {t u : Tree Place} (h : t.FitsIn u)
    (ht : (Tree.negate place t).Ordered) :
    (Tree.negate place t).FitsIn (.negate place u) := by
  refine ⟨rfl, ⟨?_, h.ordered⟩, ?_, h.params, fun hn => ⟨?_, h.nested hn.2⟩⟩
  · rw [h.tag]
    exact ht.1
  · intro slot
    have := h.count slot
    simp only [slots_negate, List.count_append]
    omega
  · rw [h.tag]
    exact hn.1

theorem FitsIn.binary {place : Place} {op : Operator} {l l' r r' : Tree Place}
    (hl : l.FitsIn l') (hr : r.FitsIn r') (ht : (Tree.binary place op l r).Ordered) :
    (Tree.binary place op l r).FitsIn (.binary place op l' r') := by
  refine ⟨rfl, ⟨?_, ?_, hl.ordered, hr.ordered⟩, ?_, ?_,
    fun hn => ⟨?_, ?_, hl.nested hn.2.2.1, hr.nested hn.2.2.2⟩⟩
  · rw [hl.tag]
    exact ht.1
  · rw [hr.tag]
    exact ht.2.1
  · intro slot
    have := hl.count slot
    have := hr.count slot
    simp only [slots_binary, List.count_append]
    omega
  · intro index hindex
    simp only [Tree.params, List.mem_append] at hindex ⊢
    exact hindex.imp (hl.params index) (hr.params index)
  · rw [hl.tag]
    exact hn.1
  · rw [hr.tag]
    exact hn.2.1

theorem WellPlaced.operand {place : Place} {t : Tree Place}
    (h : (negate place t).WellPlaced) : t.WellPlaced := by
  have hnodup := h.nodup
  rw [slots_negate] at hnodup
  exact ⟨h.ordered.2, hnodup.of_append_left⟩

theorem WellPlaced.left {place : Place} {op : Operator} {l r : Tree Place}
    (h : (binary place op l r).WellPlaced) : l.WellPlaced := by
  have hnodup := h.nodup
  rw [slots_binary] at hnodup
  exact ⟨h.ordered.2.2.1, hnodup.of_append_left.of_append_left⟩

theorem WellPlaced.right {place : Place} {op : Operator} {l r : Tree Place}
    (h : (binary place op l r).WellPlaced) : r.WellPlaced := by
  have hnodup := h.nodup
  rw [slots_binary] at hnodup
  exact ⟨h.ordered.2.2.2, hnodup.of_append_left.of_append_right⟩

theorem WellPlaced.notMem_operand {place : Place} {t : Tree Place}
    (h : (negate place t).WellPlaced) : place.slot ∉ t.slots := by
  have hnodup := h.nodup
  rw [slots_negate] at hnodup
  exact fun hmem => (List.nodup_append'.mp hnodup).2.2 hmem (List.mem_singleton_self _)

/-- The root of a binary node and its operands are in different slots. -/
theorem WellPlaced.apart {place : Place} {op : Operator} {l r : Tree Place}
    (h : (binary place op l r).WellPlaced) :
    place.slot ∉ l.slots ∧ place.slot ∉ r.slots ∧ l.slots.Disjoint r.slots := by
  have hnodup := h.nodup
  rw [slots_binary] at hnodup
  obtain ⟨hoperands, -, hplace⟩ := List.nodup_append'.mp hnodup
  exact ⟨fun hmem => hplace (List.mem_append_left _ hmem) (List.mem_singleton_self _),
    fun hmem => hplace (List.mem_append_right _ hmem) (List.mem_singleton_self _),
    (List.nodup_append'.mp hoperands).2.2⟩

end Tree

namespace Arena

open Abacus.Tree (entries slots)

/-! ## Reading a table -/

/-- The table has every entry of the tree. -/
def Holds (nodes : Array Node) (t : Tree Place) : Prop :=
  ∀ e ∈ t.entries, nodes[e.1.slot]? = some ⟨e.2, e.1.span⟩

theorem Holds.tag {nodes : Array Node} {t : Tree Place} (h : Holds nodes t) :
    nodes[t.tag.slot]? = some ⟨t.kind, t.tag.span⟩ :=
  h _ t.tag_mem_entries

theorem Holds.kindAt?_eq {nodes : Array Node} {t : Tree Place} (h : Holds nodes t) :
    kindAt? nodes t.tag.slot = some t.kind := by
  rw [kindAt?, h.tag]
  rfl

theorem Holds.placeAt_eq {nodes : Array Node} {t : Tree Place} (h : Holds nodes t) :
    placeAt nodes t.tag.slot = t.tag := by
  rw [placeAt, h.tag]
  rfl

theorem Holds.literalAt?_eq {nodes : Array Node} {t : Tree Place} (h : Holds nodes t) :
    literalAt? nodes t.tag.slot = t.literal? := by
  rw [literalAt?, h.tag]
  cases t <;> rfl

theorem holds_negate {nodes : Array Node} {place : Place} {t : Tree Place} :
    Holds nodes (.negate place t) ↔
      nodes[place.slot]? = some ⟨.negate t.tag.slot, place.span⟩ ∧ Holds nodes t := by
  simp only [Holds, entries, List.mem_append, List.mem_singleton]
  constructor
  · intro h
    exact ⟨h _ (Or.inr rfl), fun e he => h e (Or.inl he)⟩
  · rintro ⟨hplace, ht⟩ e (he | rfl)
    · exact ht e he
    · exact hplace

theorem holds_binary {nodes : Array Node} {place : Place} {op : Operator}
    {l r : Tree Place} :
    Holds nodes (.binary place op l r) ↔
      nodes[place.slot]? = some ⟨.binary op l.tag.slot r.tag.slot, place.span⟩ ∧
        Holds nodes l ∧ Holds nodes r := by
  simp only [Holds, entries, List.mem_append, List.mem_singleton]
  constructor
  · intro h
    exact ⟨h _ (Or.inr rfl), fun e he => h e (Or.inl (Or.inl he)),
      fun e he => h e (Or.inl (Or.inr he))⟩
  · rintro ⟨hplace, hl, hr⟩ e ((he | he) | rfl)
    · exact hl e he
    · exact hr e he
    · exact hplace

theorem Holds.lt_size {nodes : Array Node} {t : Tree Place} (h : Holds nodes t)
    {slot : Nat} (hslot : slot ∈ t.slots) : slot < nodes.size := by
  obtain ⟨e, he, rfl⟩ := List.mem_map.mp hslot
  obtain ⟨hlt, -⟩ := Array.getElem?_eq_some_iff.mp (h e he)
  exact hlt

/-- Reading below a slot finds exactly the ordered trees whose entries the table holds. -/
theorem treeAt?_eq_some_iff {nodes : Array Node} {slot : Nat} {t : Tree Place} :
    treeAt? nodes slot = some t ↔ t.tag.slot = slot ∧ t.Ordered ∧ Holds nodes t := by
  constructor
  · intro h
    fun_induction treeAt? nodes slot generalizing t with
    | case1 => simp at h
    | case2 slot node hnode value hkind =>
      obtain rfl := Option.some.inj h
      refine ⟨rfl, trivial, ?_⟩
      simp [Holds, entries, hnode, ← hkind]
    | case3 slot node hnode index hkind =>
      obtain rfl := Option.some.inj h
      refine ⟨rfl, trivial, ?_⟩
      simp [Holds, entries, hnode, ← hkind]
    | case4 slot node hnode operand hkind hlt ih =>
      obtain ⟨u, hu, rfl⟩ := Option.map_eq_some_iff.mp h
      obtain ⟨htag, hordered, hholds⟩ := ih hu
      refine ⟨rfl, ⟨htag ▸ hlt, hordered⟩, holds_negate.mpr ⟨?_, hholds⟩⟩
      rw [hnode, htag, ← hkind]
    | case5 => simp at h
    | case6 slot node hnode op left right hkind hlt ihl ihr =>
      obtain ⟨l, hl, h⟩ := Option.bind_eq_some_iff.mp h
      obtain ⟨r, hr, rfl⟩ := Option.map_eq_some_iff.mp h
      obtain ⟨hltag, hlordered, hlholds⟩ := ihl hl
      obtain ⟨hrtag, hrordered, hrholds⟩ := ihr hr
      refine ⟨rfl, ⟨hltag ▸ hlt.1, hrtag ▸ hlt.2, hlordered, hrordered⟩,
        holds_binary.mpr ⟨?_, hlholds, hrholds⟩⟩
      rw [hnode, hltag, hrtag, ← hkind]
    | case7 => simp at h
  · rintro ⟨rfl, hordered, hholds⟩
    induction t with
    | literal place value =>
      have h : nodes[place.slot]? = _ := hholds.tag
      rw [Tree.tag, treeAt?, h]
      rfl
    | param place index =>
      have h : nodes[place.slot]? = _ := hholds.tag
      rw [Tree.tag, treeAt?, h]
      rfl
    | negate place operand ih =>
      obtain ⟨h, hoperand⟩ := holds_negate.mp hholds
      rw [Tree.tag, treeAt?, h]
      simp only [hordered.1, if_true, ih hordered.2 hoperand, Option.map_some]
    | binary place op left right ihl ihr =>
      obtain ⟨h, hl, hr⟩ := holds_binary.mp hholds
      rw [Tree.tag, treeAt?, h]
      simp only [hordered.1, hordered.2.1, and_self, if_true, ihl hordered.2.2.1 hl,
        ihr hordered.2.2.2 hr, Option.bind_some, Option.map_some]

/-! ## Writing a table -/

theorem getElem?_write_of_ne {nodes : Array Node} {place : Place} {kind : Kind}
    {slot : Nat} (h : place.slot ≠ slot) :
    (write nodes place kind)[slot]? = nodes[slot]? :=
  Array.getElem?_setIfInBounds_ne h

theorem getElem?_write_self {nodes : Array Node} {place : Place} {kind : Kind}
    (h : place.slot < nodes.size) :
    (write nodes place kind)[place.slot]? = some ⟨kind, place.span⟩ :=
  Array.getElem?_setIfInBounds_self_of_lt h

theorem getElem?_writeAll_of_notMem {nodes : Array Node} {list : List (Place × Kind)}
    {slot : Nat} (h : slot ∉ list.map (·.1.slot)) :
    (writeAll nodes list)[slot]? = nodes[slot]? := by
  induction list generalizing nodes with
  | nil => rfl
  | cons e rest ih =>
    simp only [List.map_cons, List.mem_cons, not_or] at h
    calc (writeAll nodes (e :: rest))[slot]?
        = (writeAll (write nodes e.1 e.2) rest)[slot]? := rfl
      _ = (write nodes e.1 e.2)[slot]? := ih h.2
      _ = nodes[slot]? := getElem?_write_of_ne (Ne.symm h.1)

/-- An entry is there after all entries were written, if no other one has its slot. -/
theorem getElem?_writeAll_of_mem {nodes : Array Node} {list : List (Place × Kind)}
    {e : Place × Kind} (hlt : e.1.slot < nodes.size) (he : e ∈ list)
    (hunique : ∀ e' ∈ list, e'.1.slot = e.1.slot → e' = e) :
    (writeAll nodes list)[e.1.slot]? = some ⟨e.2, e.1.span⟩ := by
  induction list generalizing nodes with
  | nil => simp at he
  | cons first rest ih =>
    have hrest : ∀ e' ∈ rest, e'.1.slot = e.1.slot → e' = e := fun e' he' =>
      hunique e' (List.mem_cons_of_mem first he')
    by_cases hmem : e ∈ rest
    · exact ih (by simpa using hlt) hmem hrest
    · obtain rfl : e = first := (List.mem_cons.mp he).resolve_right hmem
      have hnotMem : e.1.slot ∉ rest.map (·.1.slot) := by
        intro hslot
        obtain ⟨e', he', heq⟩ := List.mem_map.mp hslot
        exact hmem (hrest e' he' heq ▸ he')
      exact (getElem?_writeAll_of_notMem hnotMem).trans (getElem?_write_self hlt)

/-! ## The tree that an arena stores -/

/-- The arena stores the tree, well placed, with its root in the last slot and with no
parameter beyond those that the arena was read against. -/
structure Stores (a : Arena) (t : Tree Place) : Prop where
  root : t.tag.slot = a.root
  wellPlaced : t.WellPlaced
  holds : Holds a.nodes t
  params : ∀ index ∈ t.params, index < a.paramCount

theorem Stores.tree?_eq {a : Arena} {t : Tree Place} (h : a.Stores t) :
    a.tree? = some t :=
  treeAt?_eq_some_iff.mpr ⟨h.root, h.wellPlaced.ordered, h.holds⟩

end Arena

end Abacus
