import Abacus.Tree.Simplify

set_option autoImplicit false

/-!
# Simplifying an arena in place

The rules for trees are carried out in the table of an arena, without building another
one.  A rule looks at a node, at its operands and at their operands, and overwrites a few
slots: that of the node, which keeps its span, and slots of operands that it does not need
any more.  What else the rewritten node refers to stays where it is.  This is only sound
because no slot is used by two nodes.

The nodes that the root reaches are settled in post-order.  Settling a node applies rules
to it until none does any more.  A rule that builds an operand anew has that operand
settled first, so there is a stack of slots that are being settled.  `Settling` is the
state of this loop and `Settling.step` one round of it, in which one node is looked at.
Nothing in the loop itself bounds the number of rounds.
-/

namespace Abacus.Arena

/-- The least span around the nodes in two slots. -/
def combinedSpan (nodes : Array Node) (left right : Nat) : Span :=
  Span.combine (placeAt nodes left).span (placeAt nodes right).span

/-! ## The rules -/

/-- What a look at a node leads to: slots to be written, and the slot to look at next. -/
inductive Edit where
  /-- No rule applies. -/
  | done
  /-- After these writes the node is looked at again. -/
  | again (writes : List (Place × Kind))
  /-- After these writes the operand in a slot is settled before the node. -/
  | settleOperand (writes : List (Place × Kind)) (slot : Nat)
  deriving DecidableEq, Repr

namespace Edit

/-- The form of the rules for binary nodes: what a rule does in a table with the node at a
place, whose operands are given by their slots. -/
abbrev Rule : Type := Array Node → Place → Operator → Nat → Nat → Option Edit

/-- Copies the kind of another node into a place. -/
def copy (nodes : Array Node) (place : Place) (source : Nat) : Option Edit :=
  (kindAt? nodes source).map fun kind => .again [(place, kind)]

/-- Computes an operation on two literals that has a value. -/
def fold : Rule := fun nodes place op left right =>
  match literalAt? nodes left, literalAt? nodes right with
  | some l, some r => (op.compute? l r).map fun value => .again [(place, .literal value)]
  | _, _ => none

/-- Drops a zero from a sum or difference. -/
def dropZero : Rule := fun nodes place op left right =>
  if literalAt? nodes left = some 0 then
    if op = .sub then some (.again [(place, .negate right)]) else copy nodes place right
  else if literalAt? nodes right = some 0 then
    copy nodes place left
  else
    none

/-- Drops a factor of one, and drops the other factor beside a zero. -/
def dropFactor : Rule := fun nodes place _ left right =>
  if literalAt? nodes left = some 0 ∨ literalAt? nodes right = some 0 then
    some (.again [(place, .literal 0)])
  else if literalAt? nodes right = some 1 then
    copy nodes place left
  else if literalAt? nodes left = some 1 then
    copy nodes place right
  else
    none

/-- Drops the divisor of a zero. -/
def dropDivisor : Rule := fun nodes place _ left _ =>
  if literalAt? nodes left = some 0 then some (.again [(place, .literal 0)]) else none

/-- Computes a difference or quotient of a parameter and itself. -/
def cancel : Rule := fun nodes place op left right =>
  match op, kindAt? nodes left, kindAt? nodes right with
  | .sub, some (.param i), some (.param j) =>
    if i = j then some (.again [(place, .literal 0)]) else none
  | .div, some (.param i), some (.param j) =>
    if i = j then some (.again [(place, .literal 1)]) else none
  | _, _, _ => none

/-- Merges a literal on the left with one inside the right operand.  The left slot takes
the merged literal, the right slot is given up. -/
def mergeRight : Rule := fun nodes place op left right =>
  match literalAt? nodes left, kindAt? nodes right with
  | some l, some (.binary inner a b) =>
    if op.sameChain inner then
      match literalAt? nodes a, literalAt? nodes b with
      | some v, _ => (op.compute? l v).map fun value =>
          .again [(placeAt nodes left, .literal value),
            (place, .binary (op.compose inner) left b)]
      | none, some v => ((op.compose inner).compute? l v).map fun value =>
          .again [(placeAt nodes left, .literal value), (place, .binary op left a)]
      | none, none => none
    else
      none
  | _, _ => none

/-- Merges a literal on the right with one inside the left operand.  The right slot takes
the merged literal, the left slot is given up. -/
def mergeLeft : Rule := fun nodes place op left right =>
  match kindAt? nodes left, literalAt? nodes right, op.chain? with
  | some (.binary inner a b), some r, some chain =>
    if op.sameChain inner then
      match literalAt? nodes b, literalAt? nodes a with
      | some v, _ => (op.compute? (inner.signed v) r).map fun value =>
          .again [(placeAt nodes right, .literal value), (place, .binary chain a right)]
      | none, some v => (op.compute? v r).map fun value =>
          .again [(placeAt nodes right, .literal value), (place, .binary inner right b)]
      | none, none => none
    else
      none
  | _, _, _ => none

/-- Regroups a chain to the left.  The new operation takes the right slot. -/
def rotate : Rule := fun nodes place op left right =>
  match kindAt? nodes right with
  | some (.binary inner c d) =>
    if op.sameChain inner ∧ left < right then
      some (.settleOperand
        [(⟨right, combinedSpan nodes left c⟩, .binary op left c),
          (place, .binary (op.compose inner) right d)]
        right)
    else
      none
  | _ => none

/-- Moves a literal to the end of a chain.  The new operation takes the left slot, or else
the right one, whose parameter moves to the left slot. -/
def surface : Rule := fun nodes place op left right =>
  match kindAt? nodes left with
  | some (.binary inner a c) =>
    if op.sameChain inner ∧ literalAt? nodes right = none ∧
      (literalAt? nodes c).isSome then
      if right < left then
        some (.settleOperand
          [(⟨left, combinedSpan nodes a right⟩, .binary op a right),
            (place, .binary inner left c)]
          left)
      else
        match kindAt? nodes right with
        | some (.param index) =>
          some (.settleOperand
            [(⟨left, (placeAt nodes right).span⟩, .param index),
              (⟨right, combinedSpan nodes a right⟩, .binary op a left),
              (place, .binary inner right c)]
            right)
        | _ => none
    else
      none
  | _ => none

/-- The first rule of a list that applies. -/
def firstOf (rules : List Rule) : Rule := fun nodes place op left right =>
  rules.findSome? fun rule => rule nodes place op left right

/-- The rules for an operator, in the order in which they are tried. -/
def rules : Operator → List Rule
  | .add | .sub => [fold, dropZero, mergeRight, mergeLeft, rotate, surface, cancel]
  | .mul => [fold, dropFactor, mergeRight, mergeLeft, rotate, surface]
  | .div => [fold, dropDivisor, cancel]

/-- The rules for a negation. -/
def ofNegate (nodes : Array Node) (place : Place) (operand : Nat) : Edit :=
  match kindAt? nodes operand with
  | some (.literal value) => .again [(place, .literal (-value))]
  | some (.negate inner) => (copy nodes place inner).getD .done
  | _ => .done

/-- A look at the node in a slot. -/
def ofSlot (nodes : Array Node) (slot : Nat) : Edit :=
  match kindAt? nodes slot with
  | some (.negate operand) => ofNegate nodes (placeAt nodes slot) operand
  | some (.binary op left right) =>
    (firstOf (rules op) nodes (placeAt nodes slot) op left right).getD .done
  | _ => .done

end Edit

/-! ## The loop -/

/-- A table that is being simplified. -/
structure Settling where
  nodes : Array Node
  /-- The slots that are being settled, the one to look at first. -/
  pending : List Nat
  /-- The slots that are still to be settled. -/
  order : List Nat
  deriving DecidableEq, Repr

namespace Settling

/-- One round of the loop: a look at the node on top of the stack; if there is none, the
next slot is put there.  Leads to the next state, or to the table once all slots are
settled. -/
def step (s : Settling) : Settling ⊕ Array Node :=
  match s.pending, s.order with
  | slot :: below, order =>
    match Edit.ofSlot s.nodes slot with
    | .done => .inl ⟨s.nodes, below, order⟩
    | .again writes => .inl ⟨writeAll s.nodes writes, slot :: below, order⟩
    | .settleOperand writes operand =>
      .inl ⟨writeAll s.nodes writes, operand :: slot :: below, order⟩
  | [], slot :: order => .inl ⟨s.nodes, [slot], order⟩
  | [], [] => .inr s.nodes

/-- The table at the end of the loop.  Nothing is said about it if the loop never ends. -/
def run (s : Settling) : Array Node := repeatM (m := Id) (fun s => pure s.step) s

/-- The state before the first look at a node of an arena. -/
def start (a : Arena) : Settling := ⟨a.nodes, [], a.postOrder⟩

end Settling

/-- The arena after all nodes that the root reaches were settled. -/
def simplify (a : Arena) : Arena := { a with nodes := (Settling.start a).run }

end Abacus.Arena
