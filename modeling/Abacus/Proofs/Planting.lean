import Abacus.Proofs.Placement

set_option autoImplicit false

/-!
# The arena of a tree

`Arena.ofTree` appends the nodes of a tree to a table.  `Tree.placed` says in advance
which slot every node gets: the nodes below the root fill a run of slots, those of the
left operand first, and the two operands of a binary node come last, side by side.

Main statement: `Arena.stores_ofTree`, the arena of a tree stores the tree in these
places.
-/

namespace Abacus

namespace Tree

variable {α : Type}

/-- The number of nodes below the root. -/
def descendants : Tree α → Nat
  | literal _ _ => 0
  | param _ _ => 0
  | negate _ operand => operand.descendants + 1
  | binary _ _ left right => left.descendants + right.descendants + 2

/-- The tree with its root in `slot` and the nodes below the root in the slots from `base`
on. -/
def placed (base slot : Nat) : Tree Span → Tree Place
  | literal span value => literal ⟨slot, span⟩ value
  | param span index => param ⟨slot, span⟩ index
  | negate span operand =>
    negate ⟨slot, span⟩ (operand.placed base (base + operand.descendants))
  | binary span op left right =>
    binary ⟨slot, span⟩ op
      (left.placed base (base + left.descendants + right.descendants))
      (right.placed (base + left.descendants)
        (base + left.descendants + right.descendants + 1))

@[simp] theorem tag_placed (base slot : Nat) (t : Tree Span) :
    (t.placed base slot).tag = ⟨slot, t.tag⟩ := by
  cases t <;> rfl

@[simp] theorem params_placed (base slot : Nat) (t : Tree Span) :
    (t.placed base slot).params = t.params := by
  induction t generalizing base slot with
  | literal => rfl
  | param => rfl
  | negate _ _ ih => exact ih _ _
  | binary _ _ _ _ ihl ihr => simp only [placed, params, ihl, ihr]

/-- Forgetting the slots gives the tree back. -/
@[simp] theorem map_span_placed (base slot : Nat) (t : Tree Span) :
    (t.placed base slot).map Place.span = t := by
  induction t generalizing base slot with
  | literal => rfl
  | param => rfl
  | negate _ _ ih => simp only [placed, map, ih]
  | binary _ _ _ _ ihl ihr => simp only [placed, map, ihl, ihr]

/-- The nodes below the root fill their run of slots exactly. -/
theorem mem_slots_placed {base slot i : Nat} {t : Tree Span} :
    i ∈ (t.placed base slot).slots ↔
      (base ≤ i ∧ i < base + t.descendants) ∨ i = slot := by
  induction t generalizing base slot with
  | literal =>
    simp only [placed, descendants, slots_literal, List.mem_singleton]
    omega
  | param =>
    simp only [placed, descendants, slots_param, List.mem_singleton]
    omega
  | negate span operand ih =>
    simp only [placed, descendants, slots_negate, List.mem_append, List.mem_singleton, ih]
    omega
  | binary span op left right ihl ihr =>
    simp only [placed, descendants, slots_binary, List.mem_append, List.mem_singleton,
      ihl, ihr]
    omega

theorem nodup_slots_placed {base slot : Nat} {t : Tree Span}
    (h : base + t.descendants ≤ slot) :
    (t.placed base slot).slots.Nodup := by
  induction t generalizing base slot with
  | literal => simp [placed]
  | param => simp [placed]
  | negate span operand ih =>
    simp only [descendants] at h
    simp only [placed, slots_negate]
    refine List.nodup_append'.mpr ⟨ih (Nat.le_refl _), List.nodup_singleton _, ?_⟩
    intro i hi hslot
    rw [mem_slots_placed] at hi
    rw [List.mem_singleton] at hslot
    omega
  | binary span op left right ihl ihr =>
    simp only [descendants] at h
    simp only [placed, slots_binary]
    refine List.nodup_append'.mpr ⟨List.nodup_append'.mpr ⟨?_, ?_, ?_⟩,
      List.nodup_singleton _, ?_⟩
    · exact ihl (by omega)
    · exact ihr (by omega)
    · intro i hi hi'
      rw [mem_slots_placed] at hi hi'
      omega
    · intro i hi hslot
      rw [List.mem_append, mem_slots_placed, mem_slots_placed] at hi
      rw [List.mem_singleton] at hslot
      omega

theorem ordered_placed {base slot : Nat} {t : Tree Span}
    (h : base + t.descendants ≤ slot) :
    (t.placed base slot).Ordered := by
  induction t generalizing base slot with
  | literal => trivial
  | param => trivial
  | negate span operand ih =>
    simp only [descendants] at h
    refine ⟨?_, ih (Nat.le_refl _)⟩
    rw [tag_placed]
    show base + operand.descendants < slot
    omega
  | binary span op left right ihl ihr =>
    simp only [descendants] at h
    refine ⟨?_, ?_, ihl (by omega), ihr (by omega)⟩
    · rw [tag_placed]
      show base + left.descendants + right.descendants < slot
      omega
    · rw [tag_placed]
      show base + left.descendants + right.descendants + 1 < slot
      omega

end Tree

namespace Arena

/-- Planting a tree appends as many nodes as there are below its root. -/
theorem size_plant (nodes : Array Node) (t : Tree Span) :
    (plant nodes t).1.size = nodes.size + t.descendants := by
  induction t generalizing nodes with
  | literal => rfl
  | param => rfl
  | negate span operand ih =>
    simp only [plant, Array.size_push, ih, Tree.descendants]
    omega
  | binary span op left right ihl ihr =>
    simp only [plant, Array.size_push, ihl, ihr, Tree.descendants]
    omega

/-- Planting a tree leaves the nodes alone that were there before. -/
theorem getElem?_plant {nodes : Array Node} {t : Tree Span} {i : Nat}
    (h : i < nodes.size) :
    (plant nodes t).1[i]? = nodes[i]? := by
  induction t generalizing nodes with
  | literal => rfl
  | param => rfl
  | negate span operand ih =>
    have hsize := size_plant nodes operand
    simp only [plant]
    rw [Array.getElem?_push, if_neg (by omega), ih h]
  | binary span op left right ihl ihr =>
    have hl := size_plant nodes left
    have hr := size_plant (plant nodes left).1 right
    simp only [plant]
    rw [Array.getElem?_push, if_neg (by simp only [Array.size_push]; omega),
      Array.getElem?_push, if_neg (by omega), ihr (by omega), ihl h]

/-- A table that goes on from the planted nodes, and has the root's own node in some slot,
holds the tree. -/
theorem holds_placed {nodes table : Array Node} {t : Tree Span} {slot : Nat}
    (hbelow : ∀ i, nodes.size ≤ i → i < nodes.size + t.descendants →
      table[i]? = (plant nodes t).1[i]?)
    (hroot : table[slot]? = some (plant nodes t).2) :
    Holds table (t.placed nodes.size slot) := by
  induction t generalizing nodes slot with
  | literal =>
    intro e he
    obtain rfl := List.mem_singleton.mp he
    exact hroot
  | param =>
    intro e he
    obtain rfl := List.mem_singleton.mp he
    exact hroot
  | negate span operand ih =>
    have hsize := size_plant nodes operand
    simp only [plant, Tree.descendants] at hbelow hroot
    refine holds_negate.mpr ⟨?_, ih ?_ ?_⟩
    · rw [hroot, hsize, Tree.tag_placed]
    · intro i hlow hhigh
      rw [hbelow i hlow (by omega), Array.getElem?_push, if_neg (by omega)]
    · rw [hbelow _ (by omega) (by omega), ← hsize, Array.getElem?_push, if_pos rfl]
  | binary span op left right ihl ihr =>
    have hl := size_plant nodes left
    have hr := size_plant (plant nodes left).1 right
    rw [hl] at hr
    simp only [plant, Tree.descendants] at hbelow hroot
    -- The slots of the operands are the last two that were appended.
    have hbelow' :
        ∀ i, nodes.size ≤ i → i < nodes.size + left.descendants + right.descendants →
        table[i]? = (plant (plant nodes left).1 right).1[i]? := by
      intro i hlow hhigh
      rw [hbelow i hlow (by omega), Array.getElem?_push,
        if_neg (by simp only [Array.size_push]; omega), Array.getElem?_push,
        if_neg (by omega)]
    refine holds_binary.mpr ⟨?_, ihl ?_ ?_, ?_⟩
    · rw [hroot, hr, Tree.tag_placed, Tree.tag_placed]
    · intro i hlow hhigh
      rw [hbelow' i hlow (by omega), getElem?_plant (by omega)]
    · rw [hbelow _ (by omega) (by omega), Array.getElem?_push,
        if_neg (by simp only [Array.size_push]; omega), Array.getElem?_push,
        if_pos hr.symm]
    · rw [← hl]
      refine ihr ?_ ?_
      · intro i hlow hhigh
        rw [hbelow' i (by omega) (by omega)]
      · rw [hbelow _ (by omega) (by omega), Array.getElem?_push,
          if_pos (by simp only [Array.size_push]; omega)]

/-- The arena of a tree stores the tree. -/
theorem stores_ofTree {t : Tree Span} {paramCount : Nat}
    (h : ∀ index ∈ t.params, index < paramCount) :
    (ofTree t paramCount).Stores (t.placed 0 t.descendants) := by
  have hsize : (plant #[] t).1.size = t.descendants := by simp [size_plant]
  refine ⟨?_, ⟨Tree.ordered_placed (by omega), Tree.nodup_slots_placed (by omega)⟩, ?_,
    ?_⟩
  · simp [ofTree, root, size, hsize]
  · have hbelow :
        ∀ i, (#[] : Array Node).size ≤ i → i < (#[] : Array Node).size + t.descendants →
        (ofTree t paramCount).nodes[i]? = (plant #[] t).1[i]? := by
      intro i _ hhigh
      simp only [Array.size_empty, Nat.zero_add] at hhigh
      simp only [ofTree]
      rw [Array.getElem?_push, if_neg (by omega)]
    refine holds_placed hbelow ?_
    simp only [ofTree]
    rw [Array.getElem?_push, if_pos hsize.symm]
  · rw [Tree.params_placed]
    exact h

end Arena

end Abacus
