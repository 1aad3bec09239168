import Abacus.Proofs.Division
import Abacus.Proofs.Language

set_option autoImplicit false

/-!
# The shape of parsed arenas

A node is appended to the arena only when the node above it is known, and what can be
computed without arguments never gets there.  So the arena of an accepted source has no
slot that the root does not reach, and no operation in it is on literals alone.  It
follows that a division by zero is never the fault of the source by itself: its divisor
depends on a parameter.

Main statements:

* `Phrase.folded_of_read`: in the tree of a phrase, everything without a parameter is a
  literal.
* `Tree.slots_placed_perm`: the nodes of a tree fill the slots of its arena.
* `Arena.compact_of_parse`: the shape of the arena of an accepted source, and what follows
  from it.
-/

namespace Abacus

open Parse

namespace Tree

variable {α : Type} {t u : Tree α}

/-! ## Trees in which nothing is left to compute -/

/-- Operations on literals have been computed, and no divisor is a literal zero. -/
def Folded : Tree α → Prop
  | literal _ _ => True
  | param _ _ => True
  | negate _ operand => operand.literal? = none ∧ operand.Folded
  | binary _ op left right =>
    (left.literal? = none ∨ right.literal? = none) ∧
      (op = .div → right.literal? ≠ some 0) ∧
      left.Folded ∧ right.Folded

theorem Subtree.folded (hu : Subtree u t) (h : t.Folded) : u.Folded :=
  hu.inherit (fun _ _ h => h.2) (fun _ _ _ _ h => h.2.2.1) (fun _ _ _ _ h => h.2.2.2) h

/-- A position is among the parameters of a tree if one of its leaves is that
parameter. -/
theorem mem_params_iff {index : Nat} :
    index ∈ t.params ↔ ∃ tag, Subtree (param tag index) t := by
  constructor
  · intro h
    induction t with
    | literal => cases h
    | param tag i =>
      obtain rfl := List.mem_singleton.mp h
      exact ⟨tag, .refl _⟩
    | negate _ operand ih =>
      obtain ⟨tag, hsub⟩ := ih h
      exact ⟨tag, .negate _ hsub⟩
    | binary _ _ left right ihl ihr =>
      rcases List.mem_append.mp h with h | h
      · obtain ⟨tag, hsub⟩ := ihl h
        exact ⟨tag, .left _ _ _ hsub⟩
      · obtain ⟨tag, hsub⟩ := ihr h
        exact ⟨tag, .right _ _ _ hsub⟩
  · rintro ⟨tag, hsub⟩
    exact hsub.params_subset List.mem_cons_self

/-- What contains no parameter is a literal. -/
theorem Folded.exists_literal (h : t.Folded) (hparams : t.params = []) :
    ∃ v, t.literal? = some v := by
  induction t with
  | literal _ v => exact ⟨v, rfl⟩
  | param => cases hparams
  | negate _ operand ih =>
    obtain ⟨v, hv⟩ := ih h.2 hparams
    cases h.1.symm.trans hv
  | binary _ op left right ihl ihr =>
    obtain ⟨hone, -, hleft, hright⟩ := h
    obtain ⟨hl, hr⟩ := List.append_eq_nil_iff.mp hparams
    obtain ⟨l, hl⟩ := ihl hleft hl
    obtain ⟨r, hr⟩ := ihr hright hr
    rcases hone with hnone | hnone
    · cases hnone.symm.trans hl
    · cases hnone.symm.trans hr

theorem folded_join {op : Operator} {left right : Tree Span} (hl : left.Folded)
    (hr : right.Folded) (hdivisor : op = .div → right.literal? ≠ some 0) :
    (join op left right).Folded := by
  rw [join]
  split
  · rename_i l r hleft hright
    split
    · trivial
    · rename_i hnone
      obtain ⟨rfl, rfl⟩ := Operator.compute?_eq_none_iff.mp hnone
      exact absurd hright (hdivisor rfl)
  · rename_i hnot
    refine ⟨?_, hdivisor, hl, hr⟩
    cases hleft : left.literal? with
    | none => exact Or.inl rfl
    | some l =>
      cases hright : right.literal? with
      | none => exact Or.inr rfl
      | some r => exact (hnot l r hleft hright).elim

@[simp] theorem literal?_placed (base slot : Nat) (t : Tree Span) :
    (t.placed base slot).literal? = t.literal? := by
  cases t <;> rfl

theorem folded_placed {base slot : Nat} {t : Tree Span} (h : t.Folded) :
    (t.placed base slot).Folded := by
  induction t generalizing base slot with
  | literal => trivial
  | param => trivial
  | negate _ _ ih => exact ⟨by rw [literal?_placed]; exact h.1, ih h.2⟩
  | binary _ _ _ _ ihl ihr =>
    obtain ⟨hone, hdivisor, hl, hr⟩ := h
    refine ⟨?_, ?_, ihl hl, ihr hr⟩
    · rw [literal?_placed, literal?_placed]
      exact hone
    · rw [literal?_placed]
      exact hdivisor

/-! ## Places without gaps -/

/-- The nodes of a tree fill the slots of its arena, each of them once. -/
theorem slots_placed_perm (t : Tree Span) :
    (t.placed 0 t.descendants).slots.Perm (List.range (t.descendants + 1)) := by
  have hnodup := nodup_slots_placed (t := t) (Nat.le_of_eq (Nat.zero_add t.descendants))
  refine (List.perm_ext_iff_of_nodup hnodup List.nodup_range).mpr fun slot => ?_
  rw [mem_slots_placed, List.mem_range]
  omega

/-- The subtrees of a placed tree are placed trees. -/
theorem Subtree.exists_placed {base slot : Nat} {t : Tree Span} {u : Tree Place}
    (h : Subtree u (t.placed base slot)) : ∃ v base' slot', u = placed base' slot' v := by
  induction t generalizing base slot with
  | literal span value =>
    cases h
    exact ⟨literal span value, base, slot, rfl⟩
  | param span index =>
    cases h
    exact ⟨param span index, base, slot, rfl⟩
  | negate span operand ih =>
    cases h with
    | refl => exact ⟨Tree.negate span operand, base, slot, rfl⟩
    | negate _ h => exact ih h
  | binary span op left right ihl ihr =>
    cases h with
    | refl => exact ⟨binary span op left right, base, slot, rfl⟩
    | left _ _ _ h => exact ihl h
    | right _ _ _ h => exact ihr h

/-- The operands of a binary node are placed side by side. -/
theorem Subtree.adjacent {base slot : Nat} {t : Tree Span} {place : Place} {op : Operator}
    {left right : Tree Place}
    (h : Subtree (binary place op left right) (t.placed base slot)) :
    right.tag.slot = left.tag.slot + 1 := by
  obtain ⟨v, base', slot', hv⟩ := h.exists_placed
  cases v with
  | literal => cases hv
  | param => cases hv
  | negate => cases hv
  | binary span op' l r =>
    obtain ⟨-, -, rfl, rfl⟩ := Tree.binary.inj hv
    rw [tag_placed, tag_placed]

end Tree

/-- Signs in front of a literal are applied to it. -/
theorem Sign.folded_of_applySigns {signs : List Sign} {t u : Tree Span} (ht : t.Folded)
    (h : applySigns (run signs) t = .ok u) : u.Folded := by
  cases hodd : odd signs with
  | false =>
    rw [applySigns_of_even hodd] at h
    rwa [← Except.ok.inj h]
  | true =>
    obtain ⟨span, hspan⟩ := applySigns_of_odd hodd t
    rw [hspan] at h
    split at h
    · split at h
      · cases h
      · rw [← Except.ok.inj h]
        trivial
    · rename_i hliteral
      rw [← Except.ok.inj h]
      exact ⟨hliteral, ht⟩

/-- Signs add no parameter. -/
theorem Sign.params_of_applySigns {signs : List Sign} {t u : Tree Span}
    (h : applySigns (run signs) t = .ok u) : ∀ index ∈ u.params, index ∈ t.params := by
  intro index hindex
  rcases applySigns_eq_ok h with rfl | ⟨r, -, rfl | ⟨value, rfl⟩⟩
  · exact hindex
  · exact hindex
  · cases hindex

namespace Phrase

variable {names : List String} {maxDepth depth : Nat} {level : Level} {p : Phrase level}
  {t : Tree Span}

/-- Everything without a parameter is computed while a phrase is read. -/
theorem folded_of_read (h : p.read names maxDepth depth = .ok t) : t.Folded := by
  apply read_rel (R := fun _ t => t.Folded) (h := h)
  case product => exact fun _ _ ht => ht
  case addend =>
    intro _ op additive _ _ l r hl hr
    refine Tree.folded_join hl hr ?_
    rintro rfl
    cases additive
  case signed => exact fun _ _ ht => ht
  case factor => exact fun _ _ _ _ _ _ _ hl hr hdivisor => Tree.folded_join hl hr hdivisor
  case atom => exact fun _ _ _ _ => Sign.folded_of_applySigns
  case literal => exact fun _ _ => trivial
  case ident => exact fun _ _ _ _ => trivial
  case group => exact fun _ _ _ _ ht => ht

/-- Where a tree has a parameter, the phrase is spelled with an identifier. -/
theorem exists_ident_of_read (h : p.read names maxDepth depth = .ok t) :
    ∀ index ∈ t.params, ∃ name span, ⟨.ident name, span⟩ ∈ p.lexemes := by
  have hjoin {op : Operator} {l r : Tree Span} {left right : List Lexeme} {m : Lexeme}
      (hl : ∀ index ∈ l.params, ∃ name span, ⟨.ident name, span⟩ ∈ left)
      (hr : ∀ index ∈ r.params, ∃ name span, ⟨.ident name, span⟩ ∈ right) :
      ∀ index ∈ (Tree.join op l r).params,
        ∃ name span, ⟨.ident name, span⟩ ∈ left ++ m :: right := by
    intro index hindex
    rcases List.mem_append.mp (Tree.params_join op l r index hindex) with hmem | hmem
    · obtain ⟨name, span, hname⟩ := hl index hmem
      exact ⟨name, span, List.mem_append_left _ hname⟩
    · obtain ⟨name, span, hname⟩ := hr index hmem
      exact ⟨name, span, List.mem_append_right _ (List.mem_cons_of_mem _ hname)⟩
  apply read_rel (h := h) (R := fun p t =>
    ∀ index ∈ t.params, ∃ name span, ⟨.ident name, span⟩ ∈ p.lexemes)
  case product => exact fun _ _ ht => ht
  case addend => exact fun _ _ _ _ _ _ _ hl hr => hjoin hl hr
  case signed => exact fun _ _ ht => ht
  case factor => exact fun _ _ _ _ _ _ _ hl hr _ => hjoin hl hr
  case atom =>
    intro signs operand t u ht hsigns index hindex
    obtain ⟨name, span, hname⟩ := ht index (Sign.params_of_applySigns hsigns index hindex)
    exact ⟨name, span, List.mem_append_right _ hname⟩
  case literal => exact fun _ _ _ hindex => by cases hindex
  case ident => exact fun span name _ _ _ _ => ⟨name, span, List.mem_cons_self⟩
  case group =>
    intro opening closing body t ht index hindex
    obtain ⟨name, span, hname⟩ := ht index hindex
    exact ⟨name, span, List.mem_cons_of_mem _ (List.mem_append_left _ hname)⟩

end Phrase

variable {source : String} {names : List String} {maxDepth : Nat}

theorem Tree.folded_of_parse {t : Tree Span}
    (h : Tree.parse source names maxDepth = .ok t) :
    t.Folded := by
  obtain ⟨p, hp⟩ := Tree.exists_spells_of_parse h
  exact Phrase.folded_of_read (Tree.read_of_parse h hp).2

/-- The tree of a source without identifiers has no parameter. -/
theorem Tree.params_of_parse {t : Tree Span}
    (h : Tree.parse source names maxDepth = .ok t)
    (hidentifiers : (Scan.ofText source.toList).identifiers = []) : t.params = [] := by
  obtain ⟨p, hp⟩ := Tree.exists_spells_of_parse h
  obtain ⟨hliterals, hread⟩ := Tree.read_of_parse h hp
  obtain ⟨stop, hstop⟩ := hp.ofText_eq
  rw [Scan.ofLexemes_of_fits (p.fits_lexemes_iff.mpr hliterals)] at hstop
  refine List.eq_nil_iff_forall_not_mem.mpr fun index hindex => ?_
  obtain ⟨name, span, hname⟩ := Phrase.exists_ident_of_read hread index hindex
  have htoken :
      Lexeme.token ⟨.ident name, span⟩ ∈ (Scan.ofText source.toList).tokens := by
    rw [hstop]
    exact List.mem_map_of_mem hname
  have hmem := Scan.mem_identifiers htoken rfl
  rw [hidentifiers] at hmem
  cases hmem

namespace Arena

open Abacus.Tree (Subtree)

/-! ## Arenas without a gap -/

/-- The node in a slot, or a node below it, is a parameter. -/
def HasParam (a : Arena) (slot : Nat) : Prop :=
  ∃ leaf index, (a.upTo slot).Reachable leaf ∧ kindAt? a.nodes leaf = some (.param index)

/-- An arena that holds nothing but what the evaluation of its root has to compute. -/
structure Compact (a : Arena) : Prop where
  /-- The last slot is that of the root. -/
  root : a.root + 1 = a.size
  /-- Operands lie below the nodes that use them. -/
  descending : ∀ slot, ∀ operand ∈ operandsAt a.nodes slot, operand < slot
  /-- The operands of an operation lie side by side, the left one first. -/
  adjacent : ∀ slot op left right,
    kindAt? a.nodes slot = some (.binary op left right) → right = left + 1
  /-- The traversal visits every slot once. -/
  postOrder : a.postOrder.Perm (List.range a.size)
  /-- Every parameter is one of those that the arena was read against. -/
  params : ∀ slot index, kindAt? a.nodes slot = some (.param index) → index < a.paramCount
  /-- What contains no parameter is a literal. -/
  folded :
    ∀ slot < a.size, ¬ a.HasParam slot → ∃ v, kindAt? a.nodes slot = some (.literal v)
  /-- No divisor is a literal zero. -/
  divisors : ∀ slot left right, kindAt? a.nodes slot = some (.binary .div left right) →
    kindAt? a.nodes right ≠ some (.literal 0)

variable {a : Arena} {t u : Tree Place}

/-- A node of the arena has a parameter if and only if its subtree does. -/
theorem Stores.hasParam_iff (h : a.Stores t) (hu : Subtree u t) :
    a.HasParam u.tag.slot ↔ u.params ≠ [] := by
  have hstores := h.upTo hu
  constructor
  · rintro ⟨leaf, index, hleaf, hkind⟩
    obtain ⟨w, hw, rfl⟩ := hstores.reachable_iff_subtree.mp hleaf
    rw [(h.holds.subtree (hw.trans hu)).kindAt?_eq] at hkind
    cases w with
    | param tag i => exact List.ne_nil_of_mem (Tree.mem_params_iff.mpr ⟨tag, hw⟩)
    | literal | negate | binary => cases hkind
  · intro hne
    obtain ⟨index, hindex⟩ := List.exists_mem_of_ne_nil _ hne
    obtain ⟨tag, hw⟩ := Tree.mem_params_iff.mp hindex
    exact ⟨tag.slot, index, hstores.reachable_iff_subtree.mpr ⟨_, hw, rfl⟩,
      (h.holds.subtree (hw.trans hu)).kindAt?_eq⟩

/-- If the stored tree fills all slots, every node of the table is the root of a
subtree. -/
theorem Stores.exists_subtree_of_kindAt? (h : a.Stores t)
    (hfull : ∀ slot < a.size, slot ∈ t.slots) {slot : Nat} {kind : Kind}
    (hkind : kindAt? a.nodes slot = some kind) :
    ∃ u, Subtree u t ∧ u.tag.slot = slot ∧ u.kind = kind := by
  obtain ⟨node, hnode, -⟩ := Option.map_eq_some_iff.mp hkind
  obtain ⟨hlt, -⟩ := Array.getElem?_eq_some_iff.mp hnode
  obtain ⟨u, hu, rfl⟩ := Tree.mem_slots_iff.mp (hfull slot hlt)
  rw [(h.holds.subtree hu).kindAt?_eq] at hkind
  exact ⟨u, hu, rfl, Option.some.inj hkind⟩

/-- So every operation in the table is that of a subtree, whose operands it refers to. -/
theorem Stores.exists_binary_of_kindAt? (h : a.Stores t)
    (hfull : ∀ slot < a.size, slot ∈ t.slots) {slot left right : Nat} {op : Operator}
    (hkind : kindAt? a.nodes slot = some (.binary op left right)) :
    ∃ place l r, Subtree (.binary place op l r) t ∧ l.tag.slot = left ∧
      r.tag.slot = right := by
  obtain ⟨u, hu, -, hu'⟩ := h.exists_subtree_of_kindAt? hfull hkind
  cases u with
  | binary place op' l r =>
    obtain ⟨rfl, rfl, rfl⟩ := Kind.binary.inj hu'
    exact ⟨place, l, r, hu, rfl, rfl⟩
  | literal | param | negate => cases hu'

/-- An arena is compact if the tree that it stores is folded and fills the slots without a
gap. -/
theorem Stores.compact (h : a.Stores t) (hfolded : t.Folded)
    (hslots : t.slots.Perm (List.range a.size))
    (hadjacent : ∀ place op left right, Subtree (.binary place op left right) t →
      right.tag.slot = left.tag.slot + 1) : a.Compact := by
  have hfull : ∀ slot < a.size, slot ∈ t.slots := fun slot hlt =>
    hslots.mem_iff.mpr (List.mem_range.mpr hlt)
  constructor
  case root =>
    have hlt : t.tag.slot < a.size :=
      List.mem_range.mp (hslots.mem_iff.mp t.slot_mem_slots)
    rw [h.root, Arena.root] at hlt
    rw [Arena.root]
    omega
  case descending =>
    intro slot operand hmem
    cases hkind : kindAt? a.nodes slot with
    | none =>
      rw [operandsAt, hkind] at hmem
      cases hmem
    | some kind =>
      obtain ⟨u, hu, rfl, rfl⟩ := h.exists_subtree_of_kindAt? hfull hkind
      rw [operandsAt, hkind] at hmem
      obtain ⟨_, -, -, hlt, -⟩ := Tree.exists_operand_of_mem hmem hu
      exact hlt (hu.ordered h.wellPlaced.ordered)
  case adjacent =>
    intro slot op left right hkind
    obtain ⟨place, l, r, hu, rfl, rfl⟩ := h.exists_binary_of_kindAt? hfull hkind
    exact hadjacent _ _ _ _ hu
  case postOrder =>
    rw [h.postOrder_eq]
    exact hslots
  case params =>
    intro slot index hkind
    obtain ⟨u, hu, -, hu'⟩ := h.exists_subtree_of_kindAt? hfull hkind
    cases u with
    | param tag i =>
      obtain rfl := Kind.param.inj hu'
      exact h.params i (hu.params_subset List.mem_cons_self)
    | literal | negate | binary => cases hu'
  case folded =>
    intro slot hlt hparam
    obtain ⟨u, hu, rfl⟩ := Tree.mem_slots_iff.mp (hfull slot hlt)
    rw [h.hasParam_iff hu, not_not] at hparam
    obtain ⟨v, hv⟩ := (hu.folded hfolded).exists_literal hparam
    exact ⟨v, (h.holds.subtree hu).kindAt?_eq.trans
      (congrArg some (Tree.kind_eq_literal_iff.mpr hv))⟩
  case divisors =>
    intro slot left right hkind hzero
    obtain ⟨place, l, r, hu, rfl, rfl⟩ := h.exists_binary_of_kindAt? hfull hkind
    have hr : Subtree r t := (Subtree.right _ _ _ (.refl r)).trans hu
    rw [(h.holds.subtree hr).kindAt?_eq, Option.some_inj, Tree.kind_eq_literal_iff]
      at hzero
    exact (hu.folded hfolded).2.1 rfl hzero

theorem size_ofTree (t : Tree Span) (paramCount : Nat) :
    (ofTree t paramCount).size = t.descendants + 1 := by
  simp [ofTree, size, size_plant]

/-- The arena of a folded tree is compact. -/
theorem compact_ofTree {t : Tree Span} {paramCount : Nat}
    (hparams : ∀ index ∈ t.params, index < paramCount) (hfolded : t.Folded) :
    (ofTree t paramCount).Compact := by
  refine (stores_ofTree hparams).compact (Tree.folded_placed hfolded) ?_ fun _ _ _ _ h =>
    h.adjacent
  rw [size_ofTree]
  exact t.slots_placed_perm

/-- In a folded tree, the divisor of a division by zero has a parameter. -/
theorem params_of_zeroDivision {place : Place} {left right : Tree Place}
    {args : List Int64} (h : (Tree.binary place .div left right).Folded)
    (hzero : right.eval args = .ok 0) :
    right.params ≠ [] := by
  intro hparams
  obtain ⟨-, hdivisor, -, hright⟩ := h
  obtain ⟨v, hv⟩ := hright.exists_literal hparams
  obtain rfl := Except.ok.inj ((Tree.eval_of_literal? hv).symm.trans hzero)
  exact hdivisor rfl hv

/-- The arena of an accepted source is compact.  A division by zero in it has a divisor
that depends on a parameter, and a source without identifiers is read into a single
literal. -/
theorem compact_of_parse (h : Arena.parse source names maxDepth = .ok a) :
    a.Compact ∧ a.paramCount = names.length ∧
    (∀ args span offset, a.evaluate args = .error (.divisionByZero span offset) →
      ∃ slot divisor, span = some (placeAt a.nodes slot).span ∧
      a.ZeroDivisor args slot divisor ∧
        a.HasParam divisor) ∧
    ((Scan.ofText source.toList).identifiers = [] →
      ∃ v span, a.nodes = #[⟨.literal v, span⟩]) := by
  obtain ⟨t, ht, rfl⟩ := parse_eq_ok_iff.mp h
  have hparams := params_of_parse ht
  have hfolded := Tree.folded_of_parse ht
  have hstores := stores_ofTree hparams
  refine ⟨compact_ofTree hparams hfolded, rfl, ?_, ?_⟩
  · intro args span offset herror
    obtain ⟨hlength, place, heval, rfl⟩ := hstores.exists_eval_error herror
    obtain ⟨left, right, hsub, hzero⟩ := Tree.zeroDivision_of_eval_error heval
    have hright := (Subtree.right _ _ _ (.refl right)).trans hsub
    refine ⟨place.slot, right.tag.slot, ?_, hstores.zeroDivisor hlength hsub hzero, ?_⟩
    · exact congrArg (some ·.span) (hstores.holds.subtree hsub).placeAt_eq.symm
    · exact (hstores.hasParam_iff hright).mpr
        (params_of_zeroDivision (hsub.folded (Tree.folded_placed hfolded)) hzero)
  · intro hidentifiers
    obtain ⟨v, hv⟩ := hfolded.exists_literal (Tree.params_of_parse ht hidentifiers)
    refine ⟨v, t.tag, ?_⟩
    rw [Tree.literal?_eq_some hv]
    rfl

/-- In `2*3-6/x` the product is computed, and for `0` the division fails by its
parameter. -/
theorem compact_of_parse_quotient :
    ∃ a, Arena.parse "2*3-6/x" ["x"] 1 = .ok a ∧ a.Compact ∧ a.size = 5 ∧
      ∃ slot divisor, (placeAt a.nodes slot).span = ⟨4, 7⟩ ∧
        a.ZeroDivisor [0] slot divisor ∧
        a.HasParam divisor := by
  obtain ⟨a, hparse, hsize, hzero⟩ : ∃ a, Arena.parse "2*3-6/x" ["x"] 1 = .ok a ∧
    a.size = 5 ∧
      a.evaluate [0] = .error (.divisionByZero (some ⟨4, 7⟩) none) := by
    have hparse : Arena.parse "2*3-6/x" ["x"] 1 =
        .ok ⟨#[⟨.literal 6, ⟨4, 5⟩⟩, ⟨.param 0, ⟨6, 7⟩⟩, ⟨.literal 6, ⟨0, 3⟩⟩,
          ⟨.binary .div 0 1, ⟨4, 7⟩⟩, ⟨.binary .sub 2 3, ⟨0, 7⟩⟩], 1⟩ := by
      decide +kernel
    exact ⟨_, hparse, rfl, by decide +kernel⟩
  obtain ⟨hcompact, -, hdivision, -⟩ := compact_of_parse hparse
  obtain ⟨slot, divisor, hspan, hdivisor, hparam⟩ := hdivision _ _ _ hzero
  exact ⟨a, hparse, hcompact, hsize, slot, divisor, (Option.some.inj hspan).symm,
    hdivisor, hparam⟩

end Arena

end Abacus
