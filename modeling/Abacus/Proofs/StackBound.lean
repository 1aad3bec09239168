import Abacus.Proofs.Language
import Abacus.Proofs.Simplify.Cost

set_option autoImplicit false

/-!
# Parentheses bound the stack

Operators are left-associative, so on one level of parentheses at most two values wait:
the left operand of a sum and the left operand of a product in it.  A chain of any length
takes no more.  Only parentheses add to this, two values for each level, and there is a
limit on those.  So the room that a program needs on the stack is bounded before the
source is known.

Main statements:

* `Phrase.need_le_of_read`: a phrase needs at most two values for each level of its
  parentheses, and as many as can wait on its own level.
* `Arena.maxStackDepth_le`: the bound on the programs of an accepted source.
-/

namespace Abacus

open Parse

/-- The room that an operand of a level takes when no parentheses stand in it: one value
for the operand itself, and one for each operator of the level or of a level above that
may wait for it. -/
def Level.room : Level → Nat
  | .sum => 3
  | .product => 2
  | .signed => 1
  | .atom => 1

namespace Tree

/-- An operation on two literals that is computed early needs less, any other needs what
its operands do. -/
theorem need_join_le (op : Operator) (left right : Tree Span) :
    (join op left right).need ≤ max left.need (right.need + 1) := by
  rw [join]
  split
  · split
    · exact Nat.le_trans left.need_pos (Nat.le_max_left _ _)
    · exact Nat.le_refl _
  · exact Nat.le_refl _

end Tree

/-- Signs need no room. -/
theorem Sign.need_of_applySigns {signs : List Sign} {t u : Tree Span}
    (h : applySigns (run signs) t = .ok u) : u.need ≤ t.need := by
  rcases applySigns_eq_ok h with rfl | ⟨r, -, rfl | ⟨value, rfl⟩⟩
  · exact Nat.le_refl _
  · exact Nat.le_refl _
  · exact t.need_pos

namespace Phrase

variable {names : List String} {maxDepth depth : Nat}

/-- The tree of a phrase needs two values for each level of parentheses in the phrase, and
those of the phrase's own level. -/
theorem need_le_of_read {level : Level} {p : Phrase level} {t : Tree Span}
    (h : p.read names maxDepth depth = .ok t) : t.need ≤ 2 * p.nesting + level.room := by
  apply read_rel (h := h) (R := fun {level} p t => t.need ≤ 2 * p.nesting + level.room)
  case product => exact fun _ _ => Nat.le_succ_of_le
  case addend =>
    intro left op _ _ right l r hl hr
    have hjoin := Tree.need_join_le op l r
    simp only [nesting, Level.room] at hl hr ⊢
    omega
  case signed => exact fun _ _ => Nat.le_succ_of_le
  case factor =>
    intro left op _ _ right l r hl hr _
    have hjoin := Tree.need_join_le op l r
    simp only [nesting, Level.room] at hl hr ⊢
    omega
  case atom => exact fun _ _ _ _ ht hsigns =>
    Nat.le_trans (Sign.need_of_applySigns hsigns) ht
  case literal => exact fun _ _ => Nat.le_refl 1
  case ident => exact fun _ _ _ _ => Nat.le_refl 1
  case group => exact fun _ _ _ _ ht => ht

end Phrase

variable {source : String} {names : List String} {maxDepth : Nat}

theorem Tree.need_le_of_parse {t : Tree Span}
    (h : Tree.parse source names maxDepth = .ok t) :
    t.need ≤ 2 * maxDepth + 3 := by
  obtain ⟨p, hp⟩ := Tree.exists_spells_of_parse h
  obtain ⟨-, hread⟩ := Tree.read_of_parse h hp
  have hneed := Phrase.need_le_of_read hread
  have hadmissible := (Phrase.exists_read_iff (Nat.zero_le maxDepth)).mp ⟨t, hread⟩
  have hnesting := hadmissible.nesting
  simp only [Level.room] at hneed
  omega

theorem Tree.need_placed (base slot : Nat) (t : Tree Span) :
    (t.placed base slot).need = t.need := by
  induction t generalizing base slot with
  | literal => rfl
  | param => rfl
  | negate _ _ ih => exact ih _ _
  | binary _ _ _ _ ihl ihr => simp only [placed, need, ihl, ihr]

/-- The programs of an accepted source, whether it is simplified or not, need room for at
most two values for each parenthesis that may be open, and three more. -/
theorem Arena.maxStackDepth_le {a : Arena}
    (h : Arena.parse source names maxDepth = .ok a) :
    a.compile.maxStackDepth ≤ 2 * maxDepth + 3 ∧
      a.simplify.compile.maxStackDepth ≤ 2 * maxDepth + 3 := by
  obtain ⟨t, ht, rfl⟩ := parse_eq_ok_iff.mp h
  have hstores := stores_ofTree (params_of_parse ht)
  have hneed := Tree.need_le_of_parse ht
  have hsimplify := (t.placed 0 t.descendants).noCostlier_simplify.need
  rw [hstores.maxStackDepth_compile, hstores.simplify.maxStackDepth_compile]
  rw [Tree.need_placed] at hsimplify ⊢
  exact ⟨hneed, Nat.le_trans hsimplify hneed⟩

/-- With one level of parentheses, `x+x*(x+x*x)` needs all the room that there may be. -/
theorem Arena.maxStackDepth_le_attained :
    ∃ a, Arena.parse "x+x*(x+x*x)" ["x"] 1 = .ok a ∧ a.compile.maxStackDepth = 2 * 1 + 3 ∧
      a.simplify.compile.maxStackDepth ≤ 2 * 1 + 3 := by
  obtain ⟨a, hparse, hdepth⟩ : ∃ a, Arena.parse "x+x*(x+x*x)" ["x"] 1 = .ok a ∧
      a.compile.maxStackDepth = 5 := by
    have hparse : Arena.parse "x+x*(x+x*x)" ["x"] 1 = .ok
        ⟨#[⟨.param 0, ⟨7, 8⟩⟩, ⟨.param 0, ⟨9, 10⟩⟩, ⟨.param 0, ⟨5, 6⟩⟩,
          ⟨.binary .mul 0 1, ⟨7, 10⟩⟩, ⟨.param 0, ⟨2, 3⟩⟩, ⟨.binary .add 2 3, ⟨5, 10⟩⟩,
          ⟨.param 0, ⟨0, 1⟩⟩,
          ⟨.binary .mul 4 5, ⟨2, 10⟩⟩, ⟨.binary .add 6 7, ⟨0, 10⟩⟩], 1⟩ := by
      decide +kernel
    exact ⟨_, hparse, by decide +kernel⟩
  exact ⟨a, hparse, hdepth, (maxStackDepth_le hparse).2⟩

end Abacus
