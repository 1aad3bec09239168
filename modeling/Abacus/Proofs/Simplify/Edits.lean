import Abacus.Arena.Simplify
import Abacus.Proofs.Simplify.Places

set_option autoImplicit false

/-!
# What an edit does to the tree in a table

The rules exist twice: `Simplify.step` rewrites a tree, and `Arena.Edit` overwrites slots
of a table.  If the table holds the tree, both make the same decision, and the writes of
the edit turn the tree into the one that the step leads to.  `Edit.Implements` says this
of a pair of rules, with a lemma for each of them.

Main statements:

* `Arena.Edit.ofSlot_performs`: a look at a slot does what the step does to the tree below
  the slot.
* `Arena.Changes.holds`: after the writes of an edit, the table holds the rewritten tree.
-/

namespace Abacus.Arena

open Abacus.Tree (entries)

variable {nodes : Array Node} {t u : Tree Place} {writes : List (Place × Kind)}

theorem Holds.combinedSpan_eq (ht : Holds nodes t) (hu : Holds nodes u) :
    combinedSpan nodes t.tag.slot u.tag.slot = Span.combine t.tag.span u.tag.span := by
  rw [combinedSpan, ht.placeAt_eq, hu.placeAt_eq]

/-! ## Turning one tree into another -/

/-- The writes turn the first tree into the second one: they are entries of the second
tree, and its other entries are there already. -/
structure Changes (t u : Tree Place) (writes : List (Place × Kind)) : Prop where
  written : ∀ e ∈ writes, e ∈ u.entries
  kept : ∀ e ∈ u.entries, e ∈ writes ∨ e ∈ t.entries

/-- After the writes, the table holds the second tree. -/
theorem Changes.holds (h : Changes t u writes) (ht : Holds nodes t) (hwell : t.WellPlaced)
    (hfits : t.FitsIn u) : Holds (writeAll nodes writes) u := by
  -- No two entries of the new tree are in one slot, so what is written does not hit what
  -- is kept.
  have hinj : ∀ e ∈ u.entries, ∀ e' ∈ u.entries, e'.1.slot = e.1.slot → e' = e :=
    fun e he e' he' => (List.inj_on_of_nodup_map (hfits.wellPlaced hwell).nodup) he' he
  intro e he
  by_cases hmem : e ∈ writes
  · have hlt : e.1.slot < nodes.size := ht.lt_size (hfits.mem (List.mem_map_of_mem he))
    exact getElem?_writeAll_of_mem hlt hmem fun e' he' => hinj e he e' (h.written e' he')
  · have hnotMem : e.1.slot ∉ writes.map (·.1.slot) := by
      intro hslot
      obtain ⟨e', he', heq⟩ := List.mem_map.mp hslot
      exact hmem (hinj e he e' (h.written e' he') heq ▸ he')
    rw [getElem?_writeAll_of_notMem hnotMem]
    exact ht e ((h.kept e he).resolve_left hmem)

/-- Slots that the second tree does not occupy are not written. -/
theorem Changes.frame (h : Changes t u writes) {slot : Nat} (hslot : slot ∉ u.slots) :
    (writeAll nodes writes)[slot]? = nodes[slot]? := by
  refine getElem?_writeAll_of_notMem fun hmem => hslot ?_
  obtain ⟨e, he, rfl⟩ := List.mem_map.mp hmem
  exact List.mem_map_of_mem (h.written e he)

theorem changes_literal (t : Tree Place) (place : Place) (v : Int64) :
    Changes t (.literal place v) [(place, .literal v)] :=
  ⟨fun _ h => h, fun _ h => Or.inl h⟩

/-- A copy of a subtree's topmost node stands for the whole subtree. -/
theorem changes_withTag {source : Tree Place} (place : Place)
    (h : ∀ e ∈ source.entries, e ∈ t.entries) :
    Changes t (source.withTag place) [(place, source.kind)] := by
  have hcut : ∃ below, source.entries = below ++ [(source.tag, source.kind)] ∧
      (source.withTag place).entries = below ++ [(place, source.kind)] := by
    cases source with
    | literal => exact ⟨[], rfl, rfl⟩
    | param => exact ⟨[], rfl, rfl⟩
    | negate _ operand => exact ⟨operand.entries, rfl, rfl⟩
    | binary _ _ left right => exact ⟨left.entries ++ right.entries, rfl, rfl⟩
  obtain ⟨below, hsource, hcopy⟩ := hcut
  refine ⟨fun e he => ?_, fun e he => ?_⟩
  · rw [hcopy]
    exact List.mem_append_right _ he
  · rw [hcopy, List.mem_append] at he
    refine he.symm.imp id fun hbelow => h e ?_
    rw [hsource]
    exact List.mem_append_left _ hbelow

namespace Edit

/-- An edit does to a table what a step does to the tree that it holds. -/
inductive Performs (t : Tree Place) : Edit → Simplify.Step → Prop
  | done : Performs t .done .done
  | again {u : Tree Place} {writes : List (Place × Kind)} (h : Changes t u writes) :
    Performs t (.again writes) (.again u)
  | settleOperand {place : Place} {op : Operator} {left right : Tree Place}
      {writes : List (Place × Kind)} {slot : Nat} (hslot : left.tag.slot = slot)
      (h : Changes t (.binary place op left right) writes) :
    Performs t (.settleOperand writes slot) (.settleLeft place op left right)

/-- The rule for tables applies where the rule for trees does, and performs its step. -/
def Implements (edit : Rule) (rule : Simplify.Rule) : Prop :=
  ∀ {nodes : Array Node} (place : Place) (op : Operator) {left right : Tree Place},
    Holds nodes left → Holds nodes right →
      Option.Rel (Performs (.binary place op left right))
        (edit nodes place op left.tag.slot right.tag.slot) (rule place op left right)

theorem rel_map {α β γ : Type} {R : β → γ → Prop} {f : α → β} {g : α → γ} (x : Option α)
    (h : ∀ a, R (f a) (g a)) : Option.Rel R (x.map f) (x.map g) := by
  cases x with
  | none => exact .none
  | some a => exact .some (h a)

theorem rel_getD {α β : Type} {R : α → β → Prop} {x : Option α} {y : Option β}
    {a : α} {b : β} (h : Option.Rel R x y) (hdefault : R a b) :
    R (x.getD a) (y.getD b) := by
  cases h with
  | none => exact hdefault
  | some h => exact h

theorem copy_performs {source : Tree Place} (place : Place) (hsource : Holds nodes source)
    (h : ∀ e ∈ source.entries, e ∈ t.entries) :
    Option.Rel (Performs t) (copy nodes place source.tag.slot)
      (some (.again (source.withTag place))) := by
  rw [copy, hsource.kindAt?_eq]
  exact .some (.again (changes_withTag place h))

/-! ## Each rule -/

theorem fold_implements : Implements fold Simplify.fold := by
  intro nodes place op left right hl hr
  rw [fold, Simplify.fold, hl.literalAt?_eq, hr.literalAt?_eq]
  cases left.literal? with
  | none => exact .none
  | some l =>
    cases right.literal? with
    | none => exact .none
    | some r => exact rel_map _ fun v => .again (changes_literal _ _ _)

theorem dropZero_implements : Implements dropZero Simplify.dropZero := by
  intro nodes place op left right hl hr
  rw [dropZero, Simplify.dropZero, hl.literalAt?_eq, hr.literalAt?_eq]
  split
  · split
    · refine .some (.again ⟨?_, ?_⟩)
      · simp [entries]
      · simp +contextual [entries, or_imp]
    · exact copy_performs place hr fun e he => by simp [entries, he]
  · split
    · exact copy_performs place hl fun e he => by simp [entries, he]
    · exact .none

theorem dropFactor_implements : Implements dropFactor Simplify.dropFactor := by
  intro nodes place op left right hl hr
  rw [dropFactor, Simplify.dropFactor, hl.literalAt?_eq, hr.literalAt?_eq]
  split
  · exact .some (.again (changes_literal _ _ _))
  · split
    · exact copy_performs place hl fun e he => by simp [entries, he]
    · split
      · exact copy_performs place hr fun e he => by simp [entries, he]
      · exact .none

theorem dropDivisor_implements : Implements dropDivisor Simplify.dropDivisor := by
  intro nodes place op left right hl hr
  rw [dropDivisor, Simplify.dropDivisor, hl.literalAt?_eq]
  split
  · exact .some (.again (changes_literal _ _ _))
  · exact .none

theorem cancel_implements : Implements cancel Simplify.cancel := by
  intro nodes place op left right hl hr
  unfold cancel Simplify.cancel
  rw [hl.kindAt?_eq, hr.kindAt?_eq]
  cases left with
  | param p i =>
    cases right with
    | param q j =>
      cases op with
      | sub | div =>
        simp only [Tree.kind]
        split
        · exact .some (.again (changes_literal _ _ _))
        · exact .none
      | add | mul => exact .none
    | literal | negate | binary => cases op <;> exact .none
  | literal | negate | binary => cases op <;> exact .none

theorem mergeRight_implements : Implements mergeRight Simplify.mergeRight := by
  intro nodes place op left right hl hr
  unfold mergeRight Simplify.mergeRight
  rw [hl.literalAt?_eq, hr.kindAt?_eq, hl.placeAt_eq]
  cases left.literal? with
  | none => exact .none
  | some l =>
    cases right with
    | literal | param | negate => exact .none
    | binary old inner a b =>
      obtain ⟨-, ha, hb⟩ := holds_binary.mp hr
      simp only [Tree.kind, ha.literalAt?_eq, hb.literalAt?_eq]
      split
      · cases a.literal? with
        | some v =>
          refine rel_map _ fun value => .again ⟨?_, ?_⟩
          · simp [entries, Tree.tag]
          · simp +contextual [entries, or_imp, Tree.tag]
        | none =>
          cases b.literal? with
          | none => exact .none
          | some v =>
            refine rel_map _ fun value => .again ⟨?_, ?_⟩
            · simp [entries, Tree.tag]
            · simp +contextual [entries, or_imp, Tree.tag]
      · exact .none

theorem mergeLeft_implements : Implements mergeLeft Simplify.mergeLeft := by
  intro nodes place op left right hl hr
  unfold mergeLeft Simplify.mergeLeft
  rw [hl.kindAt?_eq, hr.literalAt?_eq, hr.placeAt_eq]
  cases left with
  | literal | param | negate => exact .none
  | binary old inner a b =>
    obtain ⟨-, ha, hb⟩ := holds_binary.mp hl
    cases right.literal? with
    | none => exact .none
    | some r =>
      cases op.chain? with
      | none => exact .none
      | some chain =>
        simp only [Tree.kind, ha.literalAt?_eq, hb.literalAt?_eq]
        split
        · cases b.literal? with
          | some v =>
            refine rel_map _ fun value => .again ⟨?_, ?_⟩
            · simp [entries, Tree.tag]
            · simp +contextual [entries, or_imp, Tree.tag]
          | none =>
            cases a.literal? with
            | none => exact .none
            | some v =>
              refine rel_map _ fun value => .again ⟨?_, ?_⟩
              · simp [entries, Tree.tag]
              · simp +contextual [entries, or_imp, Tree.tag]
        · exact .none

theorem rotate_implements : Implements rotate Simplify.rotate := by
  intro nodes place op left right hl hr
  unfold rotate Simplify.rotate
  rw [hr.kindAt?_eq]
  cases right with
  | literal | param | negate => exact .none
  | binary old inner c d =>
    obtain ⟨-, hc, hd⟩ := holds_binary.mp hr
    have htag : (Tree.binary old inner c d).tag = old := rfl
    simp only [Tree.kind, htag, hl.combinedSpan_eq hc]
    split
    · refine .some (.settleOperand rfl ⟨?_, ?_⟩)
      · simp [entries, Tree.tag]
      · simp +contextual [entries, or_imp, Tree.tag]
    · exact .none

theorem surface_implements : Implements surface Simplify.surface := by
  intro nodes place op left right hl hr
  unfold surface Simplify.surface
  rw [hl.kindAt?_eq, hr.kindAt?_eq, hr.literalAt?_eq, hr.placeAt_eq]
  cases left with
  | literal | param | negate => exact .none
  | binary old inner a c =>
    obtain ⟨-, ha, hc⟩ := holds_binary.mp hl
    have htag : (Tree.binary old inner a c).tag = old := rfl
    simp only [Tree.kind, htag, hc.literalAt?_eq, ha.combinedSpan_eq hr]
    split
    · split
      · refine .some (.settleOperand rfl ⟨?_, ?_⟩)
        · simp [entries, Tree.tag]
        · simp +contextual [entries, or_imp, Tree.tag]
      · cases right with
        | param leaf i =>
          refine .some (.settleOperand rfl ⟨?_, ?_⟩)
          · simp [entries, Tree.tag]
          · simp +contextual [entries, or_imp, Tree.tag]
        | literal | negate | binary => exact .none
    · exact .none

/-! ## The look at a slot -/

theorem firstOf_implements {edits : List Rule} {rules : List Simplify.Rule}
    (h : List.Forall₂ Implements edits rules) :
    Implements (firstOf edits) (Simplify.firstOf rules) := by
  intro nodes place op left right hl hr
  induction h with
  | nil => exact .none
  | @cons edit rule edits rules hrule _ ih =>
    have hfirst := hrule place op hl hr
    simp only [firstOf, Simplify.firstOf, List.findSome?_cons] at ih ⊢
    generalize edit nodes place op left.tag.slot right.tag.slot = x at hfirst ⊢
    generalize rule place op left right = y at hfirst ⊢
    cases hfirst with
    | none => exact ih
    | some h => exact .some h

theorem rules_implement (op : Operator) :
    List.Forall₂ Implements (rules op) (Simplify.rules op) := by
  cases op with
  | add | sub =>
    exact .cons fold_implements (.cons dropZero_implements (.cons mergeRight_implements
      (.cons mergeLeft_implements (.cons rotate_implements (.cons surface_implements
        (.cons cancel_implements .nil))))))
  | mul =>
    exact .cons fold_implements (.cons dropFactor_implements (.cons mergeRight_implements
      (.cons mergeLeft_implements
        (.cons rotate_implements (.cons surface_implements .nil)))))
  | div =>
    exact .cons fold_implements
      (.cons dropDivisor_implements (.cons cancel_implements .nil))

/-- A look at a slot does what the step does to the tree below the slot. -/
theorem ofSlot_performs (h : Holds nodes t) :
    Performs t (ofSlot nodes t.tag.slot) (Simplify.step t) := by
  rw [ofSlot, h.kindAt?_eq, h.placeAt_eq]
  cases t with
  | literal => exact .done
  | param => exact .done
  | negate place operand =>
    obtain ⟨-, hoperand⟩ := holds_negate.mp h
    show Performs _ (ofNegate nodes place operand.tag.slot) _
    rw [ofNegate, hoperand.kindAt?_eq]
    cases operand with
    | literal p v => exact .again (changes_literal _ _ _)
    | param => exact .done
    | negate p inner =>
      obtain ⟨-, hinner⟩ := holds_negate.mp hoperand
      show Performs _ ((copy nodes place inner.tag.slot).getD .done) _
      rw [copy, hinner.kindAt?_eq]
      exact .again (changes_withTag place fun e he => by simp [entries, he])
    | binary => exact .done
  | binary place op left right =>
    obtain ⟨-, hl, hr⟩ := holds_binary.mp h
    have hrules := firstOf_implements (rules_implement op) place op hl hr
    exact rel_getD hrules .done

theorem ofSlot_eq_done (h : Holds nodes t) (hstep : Simplify.step t = .done) :
    ofSlot nodes t.tag.slot = .done := by
  have hedit := ofSlot_performs h
  rw [hstep] at hedit
  generalize ofSlot nodes t.tag.slot = edit at hedit
  cases hedit
  rfl

end Edit

end Abacus.Arena
