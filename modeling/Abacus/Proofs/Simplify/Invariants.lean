import Abacus.Proofs.Ranges
import Abacus.Proofs.Reachability
import Abacus.Proofs.Simplify.Loop

set_option autoImplicit false

/-!
# What the loop keeps

Simplifying reuses slots: an operand that is not needed any more gives its slot to a
literal or to a new operation, and nodes are copied upward.  After every round of the loop
the arena is well-formed nevertheless, so that the next round may overwrite slots and
every traversal ends.

Main statements:

* `Arena.Stores.wellFormed_of_reaches`: every state that the loop reaches has a
  well-formed arena.
* `Arena.settling_wellFormed`: so it is for the arenas that sources are read into, up to
  the end.
-/

namespace Abacus.Arena

/-- The arena of a state of the loop that simplifies an arena. -/
def Settling.arena (s : Settling) (a : Arena) : Arena := { a with nodes := s.nodes }

/-- An arena that is as long as another one, has its root in the same slot and the same
number of parameters, and is well-formed. -/
structure Keeps (a b : Arena) : Prop where
  size : b.size = a.size
  root : b.root = a.root
  paramCount : b.paramCount = a.paramCount
  wellFormed : b.WellFormed

variable {a : Arena} {t : Tree Place}

/-- Every state that the loop reaches has a well-formed arena. -/
theorem Stores.wellFormed_of_reaches (h : a.Stores t) (hnested : t.Nested Place.span)
    {s : Settling} (hs : (Settling.start a).Reaches s) : Keeps a (s.arena a) := by
  obtain ⟨nodes, -, hpath⟩ := h.settling_passes
  have hend : ∀ w, ¬ Settling.Next ⟨nodes, [], []⟩ w := fun w hw => by cases hw
  have hstart : HoldsForm a.nodes t a.nodes := ⟨t, Rewritten.refl h.wellPlaced h.holds⟩
  obtain ⟨u, hu⟩ := hpath.holds_of_reaches hend hstart hs
  have hstores : (s.arena a).Stores u := h.of_rewritten hu
  exact ⟨hu.size, congrArg (· - 1) hu.size, rfl,
    hstores.wellFormed (hu.fits.nested hnested)⟩

variable {source : String} {names : List String} {maxDepth : Nat}

/-- Simplifying an accepted source leaves the length of the arena, its root and its number
of parameters alone, and every round of the loop leaves it well-formed.  The loop ends, so
this is also true of the simplified arena. -/
theorem settling_wellFormed (h : Arena.parse source names maxDepth = .ok a) :
    (∀ s, (Settling.start a).Reaches s → Keeps a (s.arena a)) ∧
    (Settling.start a).Ends a.simplify.nodes ∧ Keeps a a.simplify := by
  obtain ⟨t, ht, hnested⟩ := exists_nested_of_parse h
  obtain ⟨nodes, -, hpath⟩ := ht.settling_passes
  refine ⟨fun s hs => ht.wellFormed_of_reaches hnested hs, ht.settling_ends, ?_⟩
  rw [simplify_of_ends ⟨_, hpath.reaches, rfl⟩]
  exact ht.wellFormed_of_reaches hnested hpath.reaches

/-- Regrouping `x-(1-x)` leaves a well-formed arena. -/
theorem settling_wellFormed_difference :
    ∃ a, Arena.parse "x-(1-x)" ["x"] 1 = .ok a ∧
      (∀ s, (Settling.start a).Reaches s → (s.arena a).WellFormed) ∧
        Keeps a a.simplify := by
  have hparse : Arena.parse "x-(1-x)" ["x"] 1 =
      .ok ⟨#[⟨.literal 1, ⟨3, 4⟩⟩, ⟨.param 0, ⟨5, 6⟩⟩, ⟨.param 0, ⟨0, 1⟩⟩,
        ⟨.binary .sub 0 1, ⟨3, 6⟩⟩, ⟨.binary .sub 2 3, ⟨0, 6⟩⟩], 1⟩ := by
    decide +kernel
  obtain ⟨hrounds, -, hkeeps⟩ := settling_wellFormed hparse
  exact ⟨_, hparse, fun s hs => (hrounds s hs).wellFormed, hkeeps⟩

end Abacus.Arena
