import Mathlib.Data.Set.Card
import Abacus.Proofs.Language
import Abacus.Proofs.Machine
import Abacus.Proofs.Reachability
import Abacus.Proofs.Simplify.Loop

set_option autoImplicit false

/-!
# Simplifying makes nothing bigger

Regrouping moves whole operands from the right to the left, and what a tree needs of the
stack depends on the side on which its operands stand: the right operand is computed while
the value of the left one waits.  Still no rule makes a tree larger in any respect that
counts: its nodes, the words of its code and the room that it needs on the stack.  All
three grow with the operands of a node, so what a rule saves at one node is saved in every
tree around it.

Main statements:

* `Simplify.Rewrites.noCostlier`: no rule makes a tree costlier.
* `Arena.simplify_noCostlier`: simplifying an accepted source adds neither nodes that the
  root reaches nor words nor room on the stack.
-/

namespace Abacus

namespace Tree

variable {α : Type} {t u w l l' r r' : Tree α}

/-- The number of words in the code of a tree: leaves take an operand word beside their
opcode. -/
def words : Tree α → Nat
  | literal _ _ => 2
  | param _ _ => 2
  | negate _ operand => operand.words + 1
  | binary _ _ left right => left.words + right.words + 1

@[simp] theorem words_withTag (tag : α) (t : Tree α) :
    (t.withTag tag).words = t.words := by
  cases t <;> rfl

@[simp] theorem need_withTag (tag : α) (t : Tree α) : (t.withTag tag).need = t.need := by
  cases t <;> rfl

theorem two_le_words (t : Tree α) : 2 ≤ t.words := by
  induction t with
  | literal => exact Nat.le_refl 2
  | param => exact Nat.le_refl 2
  | negate _ _ ih => exact Nat.le_succ_of_le ih
  | binary => simp only [words]; omega

theorem length_slots (t : Tree Place) : t.slots.length = t.size := by
  induction t with
  | literal => rfl
  | param => rfl
  | negate _ _ ih => simp [ih, size]
  | binary _ _ _ _ ihl ihr => simp [ihl, ihr, size, Nat.add_assoc]

theorem length_encodeAll_code (t : Tree Place) :
    (Instruction.encodeAll t.code).length = t.words := by
  induction t with
  | literal => rfl
  | param => rfl
  | negate _ _ ih => simp [ih, words, Instruction.encode]
  | binary _ _ _ _ ihl ihr => simp [ihl, ihr, words, Instruction.encode, Nat.add_assoc]

/-- The first tree has no more nodes than the second one, no longer code, and needs no
more room on the stack. -/
structure NoCostlier (u t : Tree α) : Prop where
  size : u.size ≤ t.size
  words : u.words ≤ t.words
  need : u.need ≤ t.need

theorem NoCostlier.refl (t : Tree α) : t.NoCostlier t :=
  ⟨Nat.le_refl _, Nat.le_refl _, Nat.le_refl _⟩

theorem NoCostlier.trans (hwu : w.NoCostlier u) (hut : u.NoCostlier t) : w.NoCostlier t :=
  ⟨Nat.le_trans hwu.size hut.size, Nat.le_trans hwu.words hut.words,
    Nat.le_trans hwu.need hut.need⟩

theorem NoCostlier.negate (tag : α) (h : u.NoCostlier t) :
    (Tree.negate tag u).NoCostlier (.negate tag t) :=
  ⟨Nat.succ_le_succ h.size, Nat.succ_le_succ h.words, h.need⟩

theorem NoCostlier.binary (tag : α) (op : Operator) (hl : l'.NoCostlier l)
    (hr : r'.NoCostlier r) :
    (Tree.binary tag op l' r').NoCostlier (.binary tag op l r) := by
  obtain ⟨hlsize, hlwords, hlneed⟩ := hl
  obtain ⟨hrsize, hrwords, hrneed⟩ := hr
  refine ⟨?_, ?_, ?_⟩ <;> simp only [Tree.size, Tree.words, Tree.need] <;> omega

theorem NoCostlier.withTag (tag : α) (h : u.NoCostlier t) :
    (u.withTag tag).NoCostlier t := by
  refine ⟨?_, ?_, ?_⟩
  · simpa using h.size
  · simpa using h.words
  · simpa using h.need

/-- Nothing is cheaper than a literal. -/
theorem noCostlier_literal (tag : α) (value : Int64) (t : Tree α) :
    (literal tag value).NoCostlier t :=
  ⟨t.size_pos, t.two_le_words, t.need_pos⟩

theorem noCostlier_operand (tag : α) (t : Tree α) : t.NoCostlier (.negate tag t) :=
  ⟨Nat.le_succ _, Nat.le_succ _, Nat.le_refl _⟩

theorem noCostlier_left (tag : α) (op : Operator) (l r : Tree α) :
    l.NoCostlier (.binary tag op l r) := by
  refine ⟨?_, ?_, ?_⟩ <;> simp only [size, words, need] <;> omega

theorem noCostlier_right (tag : α) (op : Operator) (l r : Tree α) :
    r.NoCostlier (.binary tag op l r) := by
  refine ⟨?_, ?_, ?_⟩ <;> simp only [size, words, need] <;> omega

end Tree

/-! ## Rules, steps and runs -/

namespace Simplify

open Abacus.Tree

/-- No rule makes a tree costlier. -/
theorem Rewrites.noCostlier {t : Tree Place} {s : Step} (h : Rewrites t s) :
    s.Leads fun u => u.NoCostlier t := by
  cases h with
  | negateLiteral | fold | zeroTimes | timesZero | zeroOver | selfMinus | selfOver =>
    exact noCostlier_literal _ _ _
  | doubleNegation place p t =>
    exact ((noCostlier_operand p t).trans (noCostlier_operand place _)).withTag place
  | zeroPlus place p right => exact (noCostlier_right _ _ _ _).withTag place
  | oneTimes place p right => exact (noCostlier_right _ _ _ _).withTag place
  | plusZero place q op left hop => exact (noCostlier_left _ _ _ _).withTag place
  | timesOne place q left => exact (noCostlier_left _ _ _ _).withTag place
  | zeroMinus | mergeRightInner | mergeRightOuter | mergeLeftOuter | mergeLeftInner =>
    refine ⟨?_, ?_, ?_⟩ <;> simp only [size, words, need] <;> omega
  -- What moves to the left waits for less: on the right the value of the left operand lay
  -- below it.
  | rotate | surface | surfaceParam =>
    refine ⟨?_, ?_, ?_⟩ <;> simp only [size, words, need] <;> omega

theorem rewriting_noCostlier : Rewriting (fun _ => True) fun t u => u.NoCostlier t where
  refl t _ := NoCostlier.refl t
  trans _ _ _ htu huv := huv.trans htu
  keeps _ _ _ _ := trivial
  operand _ _ _ := trivial
  left _ _ _ _ _ := trivial
  right _ _ _ _ _ := trivial
  negate place _ _ _ := NoCostlier.negate place
  binary place op _ _ _ _ _ := NoCostlier.binary place op
  step _ _ := step_of_rewrites trivial fun _ => Rewrites.noCostlier

end Simplify

theorem Tree.noCostlier_simplify (t : Tree Place) : t.simplify.NoCostlier t :=
  Simplify.rewriting_noCostlier.simplify trivial

/-! ## Arenas and their programs -/

namespace Arena

variable {a : Arena} {t : Tree Place}

/-- The root reaches one slot for each node of the stored tree. -/
theorem Stores.reachable_ncard (h : a.Stores t) :
    {slot | a.Reachable slot}.Finite ∧ {slot | a.Reachable slot}.ncard = t.size := by
  have hslots : {slot | a.Reachable slot} = (t.slots.toFinset : Set Nat) := by
    ext slot
    simp [h.reachable_iff]
  rw [hslots, Set.ncard_coe_finset, List.toFinset_card_of_nodup h.wellPlaced.nodup,
    t.length_slots]
  exact ⟨t.slots.toFinset.finite_toSet, rfl⟩

/-- Beside the code of its tree, a program has a header and a return. -/
theorem Stores.length_words (h : a.Stores t) : a.compile.words.length = t.words + 2 := by
  rw [Program.words, h.code_compile, List.length_cons, List.length_append,
    t.length_encodeAll_code]
  rfl

/-- The first arena costs no more than the second one. -/
structure NoCostlier (b a : Arena) : Prop where
  finite : {slot | b.Reachable slot}.Finite ∧ {slot | a.Reachable slot}.Finite
  /-- The root reaches no more nodes. -/
  reachable : {slot | b.Reachable slot}.ncard ≤ {slot | a.Reachable slot}.ncard
  /-- The program has no more words. -/
  words : b.compile.words.length ≤ a.compile.words.length
  /-- The machine has to have room for no more values. -/
  maxStackDepth : b.compile.maxStackDepth ≤ a.compile.maxStackDepth

/-- Of two stored trees, the cheaper one makes the cheaper arena. -/
theorem Stores.noCostlier {b : Arena} {u : Tree Place} (ha : a.Stores t) (hb : b.Stores u)
    (h : u.NoCostlier t) : b.NoCostlier a where
  finite := ⟨hb.reachable_ncard.1, ha.reachable_ncard.1⟩
  reachable := by
    rw [hb.reachable_ncard.2, ha.reachable_ncard.2]
    exact h.size
  words := by
    rw [hb.length_words, ha.length_words]
    exact Nat.add_le_add_right h.words 2
  maxStackDepth := by
    rw [hb.maxStackDepth_compile, ha.maxStackDepth_compile]
    exact h.need

/-- Simplifying an accepted source makes it no costlier. -/
theorem simplify_noCostlier {source : String} {names : List String} {maxDepth : Nat}
    (h : Arena.parse source names maxDepth = .ok a) : a.simplify.NoCostlier a := by
  obtain ⟨t, ht⟩ := stores_of_parse h
  exact ht.noCostlier ht.simplify t.noCostlier_simplify

/-- The program of `x-(y-x*2)` has thirteen words and needs room for four values;
regrouping the difference does not exceed that. -/
theorem simplify_noCostlier_difference :
    ∃ a, Arena.parse "x-(y-x*2)" ["x", "y"] 1 = .ok a ∧ a.compile.words.length = 13 ∧
      a.compile.maxStackDepth = 4 ∧ a.simplify.compile.words.length ≤ 13 ∧
      a.simplify.compile.maxStackDepth ≤ 4 := by
  obtain ⟨a, hparse, hwords, hdepth⟩ : ∃ a, Arena.parse "x-(y-x*2)" ["x", "y"] 1 = .ok a ∧
      a.compile.words.length = 13 ∧ a.compile.maxStackDepth = 4 := by
    have hparse : Arena.parse "x-(y-x*2)" ["x", "y"] 1 = .ok
        ⟨#[⟨.param 0, ⟨5, 6⟩⟩, ⟨.literal 2, ⟨7, 8⟩⟩, ⟨.param 1, ⟨3, 4⟩⟩,
          ⟨.binary .mul 0 1, ⟨5, 8⟩⟩, ⟨.param 0, ⟨0, 1⟩⟩, ⟨.binary .sub 2 3, ⟨3, 8⟩⟩,
          ⟨.binary .sub 4 5, ⟨0, 8⟩⟩], 2⟩ := by
      decide +kernel
    exact ⟨_, hparse, by decide +kernel, by decide +kernel⟩
  have hcost := simplify_noCostlier hparse
  exact ⟨a, hparse, hwords, hdepth, hwords ▸ hcost.words, hdepth ▸ hcost.maxStackDepth⟩

end Arena

end Abacus
