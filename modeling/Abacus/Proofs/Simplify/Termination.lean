import Abacus.Proofs.Simplify.Invariants
import Abacus.Proofs.Strategies

set_option autoImplicit false

/-!
# The loop comes to an end

Nothing in the loop that simplifies a table bounds the number of its rounds: a node is
looked at again after each rule, and rules that regroup a chain put another node on top of
the stack.  That no tree can be rewritten for ever is known from the measure by which
`Simplify.settle` is defined.  The rounds of the loop follow that recursion, so the stack
of every node that is settled becomes empty, and the loop ends.

Main statements:

* `Settling.Reaches.exists_settled`: a loop that ends has an empty stack before the next
  slot.
* `Settling.Reaches.not_diverges`: a loop that ends cannot go on for ever.
* `Arena.settling_terminates`: simplifying ends for an accepted source, simplified any
  number of times before, and each of its stacks becomes empty.
-/

namespace Abacus.Arena

namespace Settling

variable {s s' : Settling} {nodes : Array Node}

theorem next_unique : Relator.RightUnique Next :=
  fun _ _ _ h h' => Sum.inl.inj (h.symm.trans h')

/-- No slot is taken off the order before the stack is empty. -/
theorem Next.order_eq (h : s.Next s') (hpending : s.pending ≠ []) :
    s'.order = s.order := by
  obtain ⟨nodes, pending, order⟩ := s
  cases pending with
  | nil => exact absurd rfl hpending
  | cons slot below =>
    simp only [Next, step] at h
    split at h <;> exact (congrArg Settling.order (Sum.inl.inj h)).symm

/-- Before the loop ends, the stack becomes empty, with nothing more taken off the
order. -/
theorem Reaches.exists_settled (h : s.Reaches ⟨nodes, [], []⟩) :
    ∃ nodes', s.Reaches ⟨nodes', [], s.order⟩ := by
  induction h using Relation.ReflTransGen.head_induction_on with
  | refl => exact ⟨nodes, .refl⟩
  | @head s w hnext _ ih =>
    by_cases hpending : s.pending = []
    · refine ⟨s.nodes, ?_⟩
      rw [← hpending]
      exact .refl
    · obtain ⟨nodes', hsettled⟩ := ih
      rw [hnext.order_eq hpending] at hsettled
      exact ⟨nodes', .head hnext hsettled⟩

/-- The loop goes on for ever. -/
def Diverges (s : Settling) : Prop := ∃ run : Nat → Settling, run 0 = s ∧
    ∀ n, (run n).Next (run (n + 1))

/-- A loop that comes to an end cannot go on for ever, because it has one path. -/
theorem Reaches.not_diverges (h : s.Reaches ⟨nodes, [], []⟩) : ¬ s.Diverges := by
  induction h using Relation.ReflTransGen.head_induction_on with
  | refl =>
    rintro ⟨run, hstart, hnext⟩
    have h := hnext 0
    rw [hstart] at h
    cases h
  | @head s w hnext _ ih =>
    rintro ⟨run, rfl, hrun⟩
    exact ih ⟨fun n => run (n + 1), next_unique (hrun 0) hnext, fun n => hrun (n + 1)⟩

end Settling

variable {a : Arena} {t : Tree Place}

/-- Simplifying an arena ends, and so does settling every single node. -/
structure Terminates (a : Arena) : Prop where
  /-- Whatever node is put on top of the stack, in a table after some rounds, it is taken
  off again: the loop comes back to what was below it. -/
  settles : ∀ s, (Settling.start a).Reaches s → ∀ slot, (s.arena a).Reachable slot →
    ∀ below order, ∃ nodes,
      Settling.Reaches ⟨s.nodes, slot :: below, order⟩ ⟨nodes, below, order⟩
  /-- In every state of the loop the stack becomes empty before the next slot is put
  there. -/
  empties : ∀ s, (Settling.start a).Reaches s → ∃ nodes, s.Reaches ⟨nodes, [], s.order⟩
  /-- No state of the loop is the first one of infinitely many. -/
  finite : ∀ s, (Settling.start a).Reaches s → ¬ s.Diverges
  /-- The loop ends with the table of the simplified arena. -/
  ends : (Settling.start a).Ends a.simplify.nodes

theorem Stores.terminates (h : a.Stores t) : a.Terminates := by
  obtain ⟨nodes, -, hpath⟩ := h.settling_passes
  have hend : ∀ w, ¬ Settling.Next ⟨nodes, [], []⟩ w := fun w hw => by cases hw
  have hbefore {s : Settling} (hs : (Settling.start a).Reaches s) :
      s.Reaches ⟨nodes, [], []⟩ :=
    Relation.ReflTransGen.before_end Settling.next_unique hend hpath.reaches hs
  refine ⟨fun s hs slot hslot below order => ?_, fun s hs => (hbefore hs).exists_settled,
    fun s hs => (hbefore hs).not_diverges, h.settling_ends⟩
  obtain ⟨u, hu⟩ :=
    hpath.holds_of_reaches hend ⟨t, Rewritten.refl h.wellPlaced h.holds⟩ hs
  have hstores : (s.arena a).Stores u := h.of_rewritten hu
  obtain ⟨w, hw, rfl⟩ := hstores.reachable_iff_subtree.mp hslot
  obtain ⟨nodes', -, hsettled⟩ := Settling.settle_settles w s.nodes below order
    (hw.wellPlaced hstores.wellPlaced) (hstores.holds.subtree hw)
  exact ⟨nodes', hsettled.reaches⟩

variable {source : String} {names : List String} {maxDepth : Nat}

/-- Simplifying ends, with every stack on the way, for whatever an accepted source was
simplified to before. -/
theorem settling_terminates (h : Arena.parse source names maxDepth = .ok a) (k : Nat) :
    (simplify^[k] a).Terminates := by
  obtain ⟨t, ht⟩ := exists_stores_iterate h k
  exact ht.terminates

/-- Regrouping `x-(1-x)` ends, and so does simplifying what comes of it. -/
theorem settling_terminates_difference :
    ∃ a, Arena.parse "x-(1-x)" ["x"] 1 = .ok a ∧ ¬ (Settling.start a).Diverges ∧
      ¬ (Settling.start a.simplify).Diverges := by
  have hparse : Arena.parse "x-(1-x)" ["x"] 1 =
      .ok ⟨#[⟨.literal 1, ⟨3, 4⟩⟩, ⟨.param 0, ⟨5, 6⟩⟩, ⟨.param 0, ⟨0, 1⟩⟩,
        ⟨.binary .sub 0 1, ⟨3, 6⟩⟩, ⟨.binary .sub 2 3, ⟨0, 6⟩⟩], 1⟩ := by
    decide +kernel
  exact ⟨_, hparse, (settling_terminates hparse 0).finite _ .refl,
    (settling_terminates hparse 1).finite _ .refl⟩

end Abacus.Arena
