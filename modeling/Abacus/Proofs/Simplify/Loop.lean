import Abacus.Proofs.Simplify.Edits
import Abacus.Proofs.Traversal
import Mathlib.Logic.Relation

set_option autoImplicit false

/-!
# The loop that simplifies a table

The loop visits the slots of a tree in post-order and keeps a stack of slots that are
being settled.  Its rounds follow the recursion of `Tree.simplify`: settling the topmost
slot of the stack passes through tables that hold a rewritten form of the tree below that
slot, touches no other slot, and ends with the tree that `Simplify.settle` gives.

Main statements:

* `Settling.simplify_passes`: the loop takes the slots of a tree off the order, and turns
  the tree into its simple form on the way.
* `Settling.Passes.holds_of_reaches`: what holds at every table on the way to the end of
  the loop holds in every state that the loop reaches.
* `Stores.simplify`: simplifying an arena simplifies the tree that it stores.
-/

/-- Where every state has one successor at most, whatever is reached lies before the
end. -/
theorem Relation.ReflTransGen.before_end {α : Type} {r : α → α → Prop} {s e u : α}
    (hunique : Relator.RightUnique r) (hend : ∀ w, ¬ r e w)
    (he : Relation.ReflTransGen r s e) (hu : Relation.ReflTransGen r s u) :
    Relation.ReflTransGen r u e := by
  rcases Relation.ReflTransGen.total_of_right_unique hunique he hu with h | h
  · rcases Relation.ReflTransGen.cases_head h with rfl | ⟨w, hnext, -⟩
    · exact .refl
    · exact absurd hnext (hend w)
  · exact h

namespace Abacus.Arena

open Abacus.Tree (WellPlaced FitsIn slots)

/-! ## Rewritten tables -/

/-- The second table comes from the first one by rewriting a tree within its places. -/
structure Rewritten (nodes : Array Node) (t : Tree Place) (nodes' : Array Node)
    (u : Tree Place) : Prop where
  fits : t.FitsIn u
  holds : Holds nodes' u
  size : nodes'.size = nodes.size
  frame : ∀ slot ∉ t.slots, nodes'[slot]? = nodes[slot]?

namespace Rewritten

variable {nodes nodes' nodes'' : Array Node} {t u w : Tree Place}

theorem refl (hwell : t.WellPlaced) (h : Holds nodes t) : Rewritten nodes t nodes t :=
  ⟨FitsIn.refl hwell.ordered, h, rfl, fun _ _ => rfl⟩

theorem trans (htu : Rewritten nodes t nodes' u) (huw : Rewritten nodes' u nodes'' w) :
    Rewritten nodes t nodes'' w := by
  refine ⟨htu.fits.trans huw.fits, huw.holds, huw.size.trans htu.size,
    fun slot hslot => ?_⟩
  have hslot' : slot ∉ u.slots := fun h => hslot (htu.fits.mem h)
  exact (huw.frame slot hslot').trans (htu.frame slot hslot)

/-- Rewriting a part of a tree rewrites the tree, if the entries of the result are those
of the rewritten part and entries from elsewhere in the tree. -/
theorem lift {whole whole' : Tree Place} (h : Rewritten nodes t nodes' u)
    (hholds : Holds nodes whole) (hfits : whole.FitsIn whole')
    (hpart : t.slots ⊆ whole.slots)
    (hentries : ∀ e ∈ whole'.entries,
      e ∈ u.entries ∨ e ∈ whole.entries ∧ e.1.slot ∉ t.slots) :
    Rewritten nodes whole nodes' whole' := by
  refine ⟨hfits, fun e he => ?_, h.size, fun slot hslot => h.frame slot fun hmem =>
    hslot (hpart hmem)⟩
  rcases hentries e he with hnew | ⟨hold, hslot⟩
  · exact h.holds e hnew
  · rw [h.frame _ hslot]
    exact hholds e hold

theorem negate {place : Place} (h : Rewritten nodes t nodes' u)
    (hwell : (Tree.negate place t).WellPlaced) (hholds : Holds nodes (.negate place t)) :
    Rewritten nodes (.negate place t) nodes' (.negate place u) := by
  refine h.lift hholds (FitsIn.negate h.fits hwell.ordered) (by simp) fun e he => ?_
  simp only [Tree.entries, List.mem_append, List.mem_singleton] at he ⊢
  rcases he with he | rfl
  · exact Or.inl he
  · exact Or.inr ⟨Or.inr (by rw [h.fits.tag]), hwell.notMem_operand⟩

theorem left {place : Place} {op : Operator} {l l' r : Tree Place}
    (h : Rewritten nodes l nodes' l') (hwell : (Tree.binary place op l r).WellPlaced)
    (hholds : Holds nodes (.binary place op l r)) :
    Rewritten nodes (.binary place op l r) nodes' (.binary place op l' r) := by
  obtain ⟨hplace, -, hdisjoint⟩ := hwell.apart
  have hfits := FitsIn.binary h.fits (FitsIn.refl hwell.right.ordered) hwell.ordered
  refine h.lift hholds hfits (by simp [List.append_assoc]) fun e he => ?_
  simp only [Tree.entries, List.mem_append, List.mem_singleton] at he ⊢
  rcases he with (he | he) | rfl
  · exact Or.inl he
  · exact Or.inr ⟨Or.inl (Or.inr he), fun hmem => hdisjoint hmem (List.mem_map_of_mem he)⟩
  · exact Or.inr ⟨Or.inr (by rw [h.fits.tag]), hplace⟩

theorem right {place : Place} {op : Operator} {l r r' : Tree Place}
    (h : Rewritten nodes r nodes' r') (hwell : (Tree.binary place op l r).WellPlaced)
    (hholds : Holds nodes (.binary place op l r)) :
    Rewritten nodes (.binary place op l r) nodes' (.binary place op l r') := by
  obtain ⟨-, hplace, hdisjoint⟩ := hwell.apart
  have hfits := FitsIn.binary (FitsIn.refl hwell.left.ordered) h.fits hwell.ordered
  refine h.lift hholds hfits (by simp) fun e he => ?_
  simp only [Tree.entries, List.mem_append, List.mem_singleton] at he ⊢
  rcases he with (he | he) | rfl
  · exact Or.inr ⟨Or.inl (Or.inl he), fun hmem => hdisjoint (List.mem_map_of_mem he) hmem⟩
  · exact Or.inl he
  · exact Or.inr ⟨Or.inr (by rw [h.fits.tag]), hplace⟩

end Rewritten

theorem Changes.rewritten {nodes : Array Node} {t u : Tree Place}
    {writes : List (Place × Kind)} (h : Changes t u writes) (hwell : t.WellPlaced)
    (hholds : Holds nodes t) (hfits : t.FitsIn u) :
    Rewritten nodes t (writeAll nodes writes) u :=
  ⟨hfits, h.holds hholds hwell hfits, size_writeAll _ _,
    fun _ hslot => h.frame fun hmem => hslot (hfits.mem hmem)⟩

/-- The table holds a rewritten form of a tree in another table. -/
def HoldsForm (nodes : Array Node) (t : Tree Place) (nodes' : Array Node) : Prop :=
  ∃ u, Rewritten nodes t nodes' u

namespace HoldsForm

variable {nodes nodes' : Array Node} {t u l r : Tree Place} {place : Place}
  {op : Operator}

theorem of_rewritten (h : Rewritten nodes t nodes' u) (n : Array Node)
    (hn : HoldsForm nodes' u n) :
    HoldsForm nodes t n :=
  hn.imp fun _ hu => h.trans hu

theorem negate (hwell : (Tree.negate place t).WellPlaced)
    (hholds : Holds nodes (.negate place t)) (n : Array Node) (hn : HoldsForm nodes t n) :
    HoldsForm nodes (.negate place t) n := by
  obtain ⟨u, hu⟩ := hn
  exact ⟨_, hu.negate hwell hholds⟩

theorem left (hwell : (Tree.binary place op l r).WellPlaced)
    (hholds : Holds nodes (.binary place op l r)) (n : Array Node)
    (hn : HoldsForm nodes l n) :
    HoldsForm nodes (.binary place op l r) n := by
  obtain ⟨u, hu⟩ := hn
  exact ⟨_, hu.left hwell hholds⟩

theorem right (hwell : (Tree.binary place op l r).WellPlaced)
    (hholds : Holds nodes (.binary place op l r)) (n : Array Node)
    (hn : HoldsForm nodes r n) :
    HoldsForm nodes (.binary place op l r) n := by
  obtain ⟨u, hu⟩ := hn
  exact ⟨_, hu.right hwell hholds⟩

end HoldsForm

/-! ## Paths of the loop -/

namespace Settling

/-- One round of the loop leads from the first state to the second. -/
def Next (s s' : Settling) : Prop := s.step = .inl s'

/-- Some rounds of the loop lead from the first state to the second. -/
def Reaches : Settling → Settling → Prop := Relation.ReflTransGen Next

/-- After some rounds the loop ends with the table. -/
def Ends (s : Settling) (nodes : Array Node) : Prop :=
    ∃ s', s.Reaches s' ∧ s'.step = .inr nodes

/-- Some rounds of the loop lead from the first state to the second, and every table after
a round has the property. -/
def Passes (P : Array Node → Prop) : Settling → Settling → Prop :=
  Relation.ReflTransGen fun s s' => s.Next s' ∧ P s'.nodes

section

variable {nodes : Array Node} {writes : List (Place × Kind)} {slot operand : Nat}
  {below order : List Nat}

theorem next_of_done (h : Edit.ofSlot nodes slot = .done) :
    Next ⟨nodes, slot :: below, order⟩ ⟨nodes, below, order⟩ := by
  simp only [Next, step, h]

theorem next_of_again (h : Edit.ofSlot nodes slot = .again writes) :
    Next ⟨nodes, slot :: below, order⟩ ⟨writeAll nodes writes, slot :: below, order⟩ := by
  simp only [Next, step, h]

theorem next_of_settleOperand
    (h : Edit.ofSlot nodes slot = .settleOperand writes operand) :
    Next ⟨nodes, slot :: below, order⟩
      ⟨writeAll nodes writes, operand :: slot :: below, order⟩ := by
  simp only [Next, step, h]

end

variable {P Q : Array Node → Prop} {s s' u : Settling}

theorem Passes.refl (s : Settling) : Passes P s s := Relation.ReflTransGen.refl

theorem Passes.head (hnext : s.Next s') (h : P s'.nodes) (hrest : Passes P s' u) :
    Passes P s u :=
  Relation.ReflTransGen.head ⟨hnext, h⟩ hrest

theorem Passes.trans (h : Passes P s s') (hrest : Passes P s' u) : Passes P s u :=
  Relation.ReflTransGen.trans h hrest

theorem Passes.mono (h : Passes P s s') (hPQ : ∀ nodes, P nodes → Q nodes) :
    Passes Q s s' :=
  Relation.ReflTransGen.mono (fun _ _ hnext => ⟨hnext.1, hPQ _ hnext.2⟩) _ _ h

theorem Passes.reaches (h : Passes P s s') : Reaches s s' :=
  Relation.ReflTransGen.mono (fun _ _ hnext => hnext.1) _ _ h

/-- The loop unfolded once. -/
theorem run_eq (s : Settling) : s.run = s.step.elim run id := by
  rw [run, repeatM_eq_of_monadTail, repeatM.body]
  cases s.step <;> rfl

theorem Next.run_eq (h : s.Next s') : s.run = s'.run := by
  rw [Settling.run_eq, h, Sum.elim_inl]

theorem Reaches.run_eq (h : s.Reaches s') : s.run = s'.run := by
  induction h with
  | refl => rfl
  | tail _ hnext ih => exact ih.trans (Next.run_eq hnext)

theorem Ends.run_eq {nodes : Array Node} (h : s.Ends nodes) : s.run = nodes := by
  obtain ⟨w, hreaches, hend⟩ := h
  rw [hreaches.run_eq, Settling.run_eq, hend, Sum.elim_inr, id]

/-- The loop has one path.  If this comes to an end and its tables have a property, then
all states that the loop reaches have it. -/
theorem Passes.holds_of_reaches (h : Passes P s s') (hend : ∀ w, ¬ s'.Next w)
    (hs : P s.nodes) (hu : Reaches s u) : P u.nodes := by
  induction h using Relation.ReflTransGen.head_induction_on with
  | refl =>
    rcases Relation.ReflTransGen.cases_head hu with rfl | ⟨w, hnext, -⟩
    · exact hs
    · exact absurd hnext (hend w)
  | head hfirst _ ih =>
    rcases Relation.ReflTransGen.cases_head hu with rfl | ⟨w, hnext, hrest⟩
    · exact hs
    · obtain rfl := Sum.inl.inj (hfirst.1.symm.trans hnext)
      exact ih hfirst.2 hrest

/-! ## Settling one node -/

variable {nodes : Array Node} {t : Tree Place}

/-- Settling the node on top of the stack turns the first tree into the second one. -/
def Settles (t v : Tree Place) : Prop :=
  ∀ nodes below order, t.WellPlaced → Holds nodes t →
    ∃ nodes', Rewritten nodes t nodes' v ∧
      Passes (HoldsForm nodes t) ⟨nodes, t.tag.slot :: below, order⟩
        ⟨nodes', below, order⟩

theorem settles_of_done (h : Simplify.step t = .done) : Settles t t := by
  intro nodes below order hwell hholds
  have hrefl := Rewritten.refl hwell hholds
  have hdone := Edit.ofSlot_eq_done hholds h
  exact ⟨nodes, hrefl, Passes.head (next_of_done hdone) ⟨t, hrefl⟩ (Passes.refl _)⟩

theorem settles_of_again {u v : Tree Place} (h : Simplify.step t = .again u)
    (huv : Settles u v) :
    Settles t v := by
  intro nodes below order hwell hholds
  have hedit := Edit.ofSlot_performs hholds
  have hfits := Simplify.step_fitsIn hwell
  rw [h] at hedit hfits
  generalize hslot : Edit.ofSlot nodes t.tag.slot = edit at hedit
  cases hedit with
  | again hchanges =>
    have hu := hchanges.rewritten hwell hholds hfits
    obtain ⟨nodes', hv, hpath⟩ := huv _ below order (hu.fits.wellPlaced hwell) hu.holds
    rw [hu.fits.tag] at hpath
    exact ⟨nodes', hu.trans hv,
      Passes.head (next_of_again hslot) ⟨u, hu⟩ (hpath.mono (HoldsForm.of_rewritten hu))⟩

theorem settles_of_settleLeft {left right settled v : Tree Place} {place : Place}
    {op : Operator} (h : Simplify.step t = .settleLeft place op left right)
    (hleft : Settles left settled) (hwhole : Settles (.binary place op settled right) v) :
    Settles t v := by
  intro nodes below order hwell hholds
  have hedit := Edit.ofSlot_performs hholds
  have hfits := Simplify.step_fitsIn hwell
  rw [h] at hedit hfits
  generalize hslot : Edit.ofSlot nodes t.tag.slot = edit at hedit
  cases hedit with
  | settleOperand hoperand hchanges =>
    subst hoperand
    have hu := hchanges.rewritten hwell hholds hfits
    have hwell' := hu.fits.wellPlaced hwell
    obtain ⟨-, hholds', -⟩ := holds_binary.mp hu.holds
    obtain ⟨nodes₁, hl, hpath₁⟩ := hleft _ (t.tag.slot :: below) order hwell'.left hholds'
    have hforms (n) (hn : HoldsForm _ left n) : HoldsForm nodes t n :=
      HoldsForm.of_rewritten hu n (HoldsForm.left hwell' hu.holds n hn)
    have hsettled := hu.trans (hl.left hwell' hu.holds)
    obtain ⟨nodes', hv, hpath₂⟩ :=
      hwhole _ below order (hsettled.fits.wellPlaced hwell) hsettled.holds
    rw [hsettled.fits.tag] at hpath₂
    exact ⟨nodes', hsettled.trans hv, Passes.head (next_of_settleOperand hslot) ⟨_, hu⟩
      ((hpath₁.mono hforms).trans (hpath₂.mono (HoldsForm.of_rewritten hsettled)))⟩

theorem settle_settles (t : Tree Place) : Settles t (Simplify.settle t) :=
  Simplify.settle_rel (fun _ => settles_of_done) (fun _ _ _ => settles_of_again)
    (fun _ _ _ _ _ _ _ => settles_of_settleLeft) t

/-! ## The whole loop -/

/-- A slot that comes next in the order is put on the stack and settled. -/
theorem visit_passes (hwell : t.WellPlaced) (hholds : Holds nodes t) (order : List Nat) :
    ∃ nodes', Rewritten nodes t nodes' (Simplify.settle t) ∧
      Passes (HoldsForm nodes t) ⟨nodes, [], t.tag.slot :: order⟩
        ⟨nodes', [], order⟩ := by
  obtain ⟨nodes', hsettle, hpath⟩ := settle_settles t nodes [] order hwell hholds
  exact ⟨nodes', hsettle, Passes.head rfl ⟨t, Rewritten.refl hwell hholds⟩ hpath⟩

/-- The loop takes the slots of a tree off the order and turns the tree into its simple
form. -/
theorem simplify_passes (hwell : t.WellPlaced) (hholds : Holds nodes t)
    (order : List Nat) :
    ∃ nodes', Rewritten nodes t nodes' t.simplify ∧
      Passes (HoldsForm nodes t) ⟨nodes, [], t.slots ++ order⟩ ⟨nodes', [], order⟩ := by
  induction t generalizing nodes order with
  | literal place value =>
    have hdone :=
      Simplify.settle_of_done (show Simplify.step (.literal place value) = .done from rfl)
    have hvisit := visit_passes hwell hholds order
    rwa [hdone] at hvisit
  | param place index =>
    have hdone :=
      Simplify.settle_of_done (show Simplify.step (.param place index) = .done from rfl)
    have hvisit := visit_passes hwell hholds order
    rwa [hdone] at hvisit
  | negate place operand ih =>
    obtain ⟨-, hoperand⟩ := holds_negate.mp hholds
    obtain ⟨nodes₁, h₁, hpath₁⟩ := ih hwell.operand hoperand (place.slot :: order)
    have hu := h₁.negate hwell hholds
    obtain ⟨nodes', hv, hpath⟩ := visit_passes (hu.fits.wellPlaced hwell) hu.holds order
    refine ⟨nodes', hu.trans hv, ?_⟩
    rw [Tree.slots_negate, List.append_assoc]
    exact (hpath₁.mono (HoldsForm.negate hwell hholds)).trans
      (hpath.mono (HoldsForm.of_rewritten hu))
  | binary place op left right ihl ihr =>
    obtain ⟨-, hleft, -⟩ := holds_binary.mp hholds
    obtain ⟨nodes₁, h₁, hpath₁⟩ :=
      ihl hwell.left hleft (right.slots ++ place.slot :: order)
    have hu := h₁.left hwell hholds
    have hwell' := hu.fits.wellPlaced hwell
    obtain ⟨-, -, hright⟩ := holds_binary.mp hu.holds
    obtain ⟨nodes₂, h₂, hpath₂⟩ := ihr hwell'.right hright (place.slot :: order)
    have hw := hu.trans (h₂.right hwell' hu.holds)
    have hforms (n) (hn : HoldsForm nodes₁ right n) :
        HoldsForm nodes (.binary place op left right) n :=
      HoldsForm.of_rewritten hu n (HoldsForm.right hwell' hu.holds n hn)
    obtain ⟨nodes', hv, hpath⟩ := visit_passes (hw.fits.wellPlaced hwell) hw.holds order
    refine ⟨nodes', hw.trans hv, ?_⟩
    rw [Tree.slots_binary, List.append_assoc, List.append_assoc]
    exact (hpath₁.mono (HoldsForm.left hwell hholds)).trans
      ((hpath₂.mono hforms).trans (hpath.mono (HoldsForm.of_rewritten hw)))

end Settling

variable {a : Arena} {t : Tree Place}

/-- The loop ends, with the simple form of the stored tree in the table, and on its way it
passes only through tables that hold rewritten forms of the tree. -/
theorem Stores.settling_passes (h : a.Stores t) :
    ∃ nodes, Rewritten a.nodes t nodes t.simplify ∧
      Settling.Passes (HoldsForm a.nodes t) (Settling.start a) ⟨nodes, [], []⟩ := by
  obtain ⟨nodes, hrewritten, hpath⟩ := Settling.simplify_passes h.wellPlaced h.holds []
  rw [List.append_nil, ← h.postOrder_eq] at hpath
  exact ⟨nodes, hrewritten, hpath⟩

/-- A rewritten table stores the rewritten tree. -/
theorem Stores.of_rewritten {nodes : Array Node} {u : Tree Place} (h : a.Stores t)
    (hu : Rewritten a.nodes t nodes u) : ({ a with nodes } : Arena).Stores u := by
  have hroot : ({ a with nodes } : Arena).root = a.root := congrArg (· - 1) hu.size
  refine ⟨?_, hu.fits.wellPlaced h.wellPlaced, hu.holds,
    fun index hindex => h.params index (hu.fits.params index hindex)⟩
  rw [hu.fits.tag, h.root, hroot]

/-- An arena is simplified to the table at the end of the loop. -/
theorem simplify_of_ends {nodes : Array Node} (h : (Settling.start a).Ends nodes) :
    a.simplify = { a with nodes } := by
  rw [simplify, h.run_eq]

/-- The loop comes to an end. -/
theorem Stores.settling_ends (h : a.Stores t) :
    (Settling.start a).Ends a.simplify.nodes := by
  obtain ⟨nodes, -, hpath⟩ := h.settling_passes
  have hends : (Settling.start a).Ends nodes := ⟨_, hpath.reaches, rfl⟩
  rwa [simplify_of_ends hends]

/-- Simplifying an arena simplifies the tree that it stores. -/
theorem Stores.simplify (h : a.Stores t) : a.simplify.Stores t.simplify := by
  obtain ⟨nodes, hrewritten, hpath⟩ := h.settling_passes
  rw [simplify_of_ends ⟨_, hpath.reaches, rfl⟩]
  exact h.of_rewritten hrewritten

theorem paramCount_simplify (a : Arena) : a.simplify.paramCount = a.paramCount := rfl

end Abacus.Arena
