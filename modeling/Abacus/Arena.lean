import Abacus.Span
import Abacus.Tree

set_option autoImplicit false

/-!
# Arenas

A parsed expression is stored as a table of nodes, its *arena*.  A node refers to its
operands by their slots, which lie below its own, and the last slot holds the root.
Simplifying an expression reuses slots and may leave others behind that the root no longer
reaches; nothing but the length of the table depends on those.

The view of an arena is a tree whose nodes are tagged with their slots and spans
(`tree?`).  An arena is made from a tree by `ofTree`, and changed by writing single slots
(`write`).
-/

namespace Abacus

/-- A node without its span; operands are given by their slots. -/
inductive Arena.Kind where
  | literal (value : Int64)
  | param (index : Nat)
  | negate (operand : Nat)
  | binary (op : Operator) (left right : Nat)
  deriving DecidableEq, Repr, Inhabited

/-- The content of one slot. -/
structure Arena.Node where
  kind : Arena.Kind
  span : Span
  deriving DecidableEq, Repr, Inhabited

/-- An expression as a table of nodes. -/
structure Arena where
  nodes : Array Arena.Node
  /-- The number of parameters that the expression was read against. -/
  paramCount : Nat
  deriving DecidableEq, Repr

/-- Where a node is stored and where it was read from. -/
structure Place where
  slot : Nat
  span : Span
  deriving DecidableEq, Repr, Inhabited

namespace Arena

/-- The literal value of a node that is one. -/
def Node.literal? (node : Node) : Option Int64 :=
  match node.kind with
  | .literal value => some value
  | _ => none

/-- The number of slots, whether the root reaches them or not. -/
def size (a : Arena) : Nat := a.nodes.size

/-- An arena without any node. -/
def isEmpty (a : Arena) : Bool := a.nodes.isEmpty

/-- The slot of the root. -/
def root (a : Arena) : Nat := a.size - 1

/-! ## Reading a table -/

/-- The kind of the node in a slot. -/
def kindAt? (nodes : Array Node) (slot : Nat) : Option Kind :=
  (nodes[slot]?).map Node.kind

/-- The value of the node in a slot that holds a literal. -/
def literalAt? (nodes : Array Node) (slot : Nat) : Option Int64 :=
  (nodes[slot]?).bind Node.literal?

/-- A slot together with the span of the node in it. -/
def placeAt (nodes : Array Node) (slot : Nat) : Place :=
  ⟨slot, (nodes[slot]?).elim .nowhere Node.span⟩

/-! ## Trees to arenas -/

/-- Appends the nodes below the root of a tree and gives the root's own node.  The
operands of a binary node are appended together, after everything below them. -/
def plant (nodes : Array Node) : Tree Span → Array Node × Node
  | .literal span value => (nodes, ⟨.literal value, span⟩)
  | .param span index => (nodes, ⟨.param index, span⟩)
  | .negate span operand =>
    match plant nodes operand with
    | (nodes, operand) =>
      let slot := nodes.size
      (nodes.push operand, ⟨.negate slot, span⟩)
  | .binary span op left right =>
    match plant nodes left with
    | (nodes, left) =>
      match plant nodes right with
      | (nodes, right) =>
        let slot := nodes.size
        ((nodes.push left).push right, ⟨.binary op slot (slot + 1), span⟩)

/-- The arena of a tree. -/
def ofTree (t : Tree Span) (paramCount : Nat) : Arena :=
  match plant #[] t with
  | (nodes, root) => ⟨nodes.push root, paramCount⟩

/-! ## Arenas to trees -/

/-- The tree below a slot; there is none if a reference leads out of the table or does not
lead downward. -/
def treeAt? (nodes : Array Node) (slot : Nat) : Option (Tree Place) :=
  match nodes[slot]? with
  | none => none
  | some node =>
    match node.kind with
    | .literal value => some (.literal ⟨slot, node.span⟩ value)
    | .param index => some (.param ⟨slot, node.span⟩ index)
    | .negate operand =>
      if operand < slot then
        (treeAt? nodes operand).map (.negate ⟨slot, node.span⟩)
      else none
    | .binary op left right =>
      if left < slot ∧ right < slot then
        (treeAt? nodes left).bind fun l => (treeAt? nodes right).map fun r =>
          .binary ⟨slot, node.span⟩ op l r
      else
        none
termination_by slot

/-- The tree that an arena stores. -/
def tree? (a : Arena) : Option (Tree Place) :=
  treeAt? a.nodes a.root

/-- Writes one slot. -/
def write (nodes : Array Node) (place : Place) (kind : Kind) : Array Node :=
  nodes.setIfInBounds place.slot ⟨kind, place.span⟩

/-- Writes several slots, one after the other. -/
def writeAll (nodes : Array Node) (list : List (Place × Kind)) : Array Node :=
  list.foldl (fun nodes e => write nodes e.1 e.2) nodes

/-! ## Traversal -/

/-- A bound on the rounds that a traversal takes for what is pending. -/
def pendingRounds : List (Nat × Bool) → Nat
  | [] => 0
  | (_, true) :: pending => 1 + pendingRounds pending
  | (slot, false) :: pending => 3 ^ (slot + 1) + pendingRounds pending

/-- Visits the pending slots, the first one first, and then lists all visited slots in
their order.  A slot is pending without mark until its operands are put in front of it,
and then with the mark.  References that do not lead downward are not followed. -/
def visit (nodes : Array Node) (visited : List Nat) : List (Nat × Bool) → List Nat
  | [] => visited.reverse
  | (slot, true) :: pending => visit nodes (slot :: visited) pending
  | (slot, false) :: pending =>
    match kindAt? nodes slot with
    | some (.negate operand) =>
      if operand < slot then
        visit nodes visited ((operand, false) :: (slot, true) :: pending)
      else visit nodes (slot :: visited) pending
    | some (.binary _ left right) =>
      if left < slot ∧ right < slot then
        visit nodes visited ((left, false) :: (right, false) :: (slot, true) :: pending)
      else visit nodes (slot :: visited) pending
    | _ => visit nodes (slot :: visited) pending
termination_by pending => pendingRounds pending
decreasing_by
  all_goals simp only [pendingRounds]
  · omega
  · have hle : 3 ^ (operand + 1) ≤ 3 ^ slot := Nat.pow_le_pow_right (by decide) (by omega)
    have hpos : 0 < 3 ^ slot := Nat.pow_pos (by decide)
    rw [Nat.pow_succ 3 slot]
    omega
  · have hpos : 0 < 3 ^ (slot + 1) := Nat.pow_pos (by decide)
    omega
  · have hleft : 3 ^ (left + 1) ≤ 3 ^ slot := Nat.pow_le_pow_right (by decide) (by omega)
    have hright : 3 ^ (right + 1) ≤ 3 ^ slot :=
      Nat.pow_le_pow_right (by decide) (by omega)
    have hpos : 3 ^ 1 ≤ 3 ^ slot := Nat.pow_le_pow_right (by decide) (by omega)
    rw [Nat.pow_succ 3 slot]
    omega
  · have hpos : 0 < 3 ^ (slot + 1) := Nat.pow_pos (by decide)
    omega
  · have hpos : 0 < 3 ^ (slot + 1) := Nat.pow_pos (by decide)
    omega

/-- The slots that the root reaches, operands before the nodes that use them and left
before right.  This is the order in which a stack machine computes them. -/
def postOrder (a : Arena) : List Nat :=
  visit a.nodes [] (if a.isEmpty then [] else [(a.root, false)])

@[simp] theorem size_write (nodes : Array Node) (place : Place) (kind : Kind) :
    (write nodes place kind).size = nodes.size := by
  simp [write]

@[simp] theorem size_writeAll (nodes : Array Node) (list : List (Place × Kind)) :
    (writeAll nodes list).size = nodes.size := by
  induction list generalizing nodes with
  | nil => rfl
  | cons e rest ih => exact (ih _).trans (size_write _ _ _)

end Arena

end Abacus
