import Abacus.Arena

set_option autoImplicit false

/-!
# Simplifying an expression

A tree is simplified from the leaves up.  Once the operands of a node are simple, rules
are applied to the node until none applies any more:

* operations on literals are computed, and the neutral elements of sums and products
  disappear;
* the literals of a chain of sums, or of products, are gathered into one;
* `x - x` becomes zero and `x / x` becomes one for a single parameter `x`;
* a double negation cancels.

Quotients are never regrouped, because truncation does not compose.  A rule may drop an
operand, and with it a division by zero, but it never changes the value of an expression
that has one.

Each rule keeps the place of the topmost node.  An operation that a rule builds below it
takes over the place of an operand that it replaces, so operands keep lying in lower slots
than the node that uses them.  Which of two slots is lower decides whether a rule may
regroup.

Every step makes the tree smaller, or keeps its size and makes its right operand smaller,
or turns the right operand into a literal; this is why the rules cannot be applied for
ever.
-/

namespace Abacus

namespace Operator

/-- The operator whose chains an operator belongs to: sums or products.  Quotients form no
chains. -/
def chain? : Operator → Option Operator
  | add | sub => some add
  | mul => some mul
  | div => none

/-- Whether two operators belong to chains of the same kind. -/
def sameChain (op inner : Operator) : Bool :=
  op.chain?.isSome && op.chain? == inner.chain?

/-- The operator that follows when `x op (y inner z)` is regrouped as `(x op y) _ z`:
subtracting turns the inner operator around. -/
def compose (op inner : Operator) : Operator :=
  if op = sub then inner.flipped else inner

/-- The literal that continues a chain with its base operator in the way that `inner`
does: what is subtracted is negated. -/
def signed (inner : Operator) (value : Int64) : Int64 :=
  if inner = sub then -value else value

end Operator

namespace Simplify

/-- What a rule makes of a tree. -/
inductive Step where
  /-- No rule applies. -/
  | done
  /-- The tree after one rule. -/
  | again (t : Tree Place)
  /-- A binary tree after one rule that built its left operand anew, so that it may not be
  simple. -/
  | settleLeft (place : Place) (op : Operator) (left right : Tree Place)
  deriving DecidableEq, Repr

/-- The form of the rules for binary trees: what a rule makes of `left op right` at a
place. -/
abbrev Rule : Type := Place → Operator → Tree Place → Tree Place → Option Step

/-- Computes an operation on two literals that has a value. -/
def fold : Rule := fun place op left right =>
  match left.literal?, right.literal? with
  | some l, some r => (op.compute? l r).map fun value => .again (.literal place value)
  | _, _ => none

/-- Drops a zero from a sum or difference. -/
def dropZero : Rule := fun place op left right =>
  if left.literal? = some 0 then
    some (.again (if op = .sub then .negate place right else right.withTag place))
  else if right.literal? = some 0 then
    some (.again (left.withTag place))
  else
    none

/-- Drops a factor of one, and drops the other factor beside a zero. -/
def dropFactor : Rule := fun place _ left right =>
  if left.literal? = some 0 ∨ right.literal? = some 0 then
    some (.again (.literal place 0))
  else if right.literal? = some 1 then
    some (.again (left.withTag place))
  else if left.literal? = some 1 then
    some (.again (right.withTag place))
  else
    none

/-- Drops the divisor of a zero. -/
def dropDivisor : Rule := fun place _ left _ =>
  if left.literal? = some 0 then some (.again (.literal place 0)) else none

/-- Computes a difference or quotient of a parameter and itself. -/
def cancel : Rule := fun place op left right =>
  match op, left, right with
  | .sub, .param _ i, .param _ j =>
    if i = j then some (.again (.literal place 0)) else none
  | .div, .param _ i, .param _ j =>
    if i = j then some (.again (.literal place 1)) else none
  | _, _, _ => none

/-- Merges a literal on the left with one inside the right operand: `l op (a inner B)`
becomes `(l op a) _ B`, and `l op (A inner b)` becomes `(l _ b) op A`. -/
def mergeRight : Rule := fun place op left right =>
  match left.literal?, right with
  | some l, .binary _ inner a b =>
    if op.sameChain inner then
      match a.literal?, b.literal? with
      | some v, _ => (op.compute? l v).map fun value =>
          .again (.binary place (op.compose inner) (.literal left.tag value) b)
      | none, some v => ((op.compose inner).compute? l v).map fun value =>
          .again (.binary place op (.literal left.tag value) a)
      | none, none => none
    else
      none
  | _, _ => none

/-- Merges a literal on the right with one inside the left operand: `(A inner b) op r`
becomes `A _ (±b op r)` with the operator of the chain, and `(a inner B) op r` becomes `(a
op r) inner B`. -/
def mergeLeft : Rule := fun place op left right =>
  match left, right.literal?, op.chain? with
  | .binary _ inner a b, some r, some chain =>
    if op.sameChain inner then
      match b.literal?, a.literal? with
      | some v, _ => (op.compute? (inner.signed v) r).map fun value =>
          .again (.binary place chain a (.literal right.tag value))
      | none, some v => (op.compute? v r).map fun value =>
          .again (.binary place inner (.literal right.tag value) b)
      | none, none => none
    else
      none
  | _, _, _ => none

/-- Regroups a chain to the left: `X op (C inner D)` becomes `(X op C) _ D`.  The new
operation takes the place of the right operand, which has to lie above the left one. -/
def rotate : Rule := fun place op left right =>
  match right with
  | .binary old inner c d =>
    if op.sameChain inner ∧ left.tag.slot < old.slot then
      let grouped : Place := ⟨old.slot, Span.combine left.tag.span c.tag.span⟩
      some (.settleLeft place (op.compose inner) (.binary grouped op left c) d)
    else
      none
  | _ => none

/-- Moves a literal to the end of a chain: `(A inner c) op Y` becomes `(A op Y) inner c`.
The new operation takes the place of the left operand if that lies above `Y`.  Otherwise a
parameter `Y` trades places with it. -/
def surface : Rule := fun place op left right =>
  match left with
  | .binary old inner a c =>
    if op.sameChain inner ∧ right.literal? = none ∧ c.literal?.isSome then
      if right.tag.slot < old.slot then
        let grouped : Place := ⟨old.slot, Span.combine a.tag.span right.tag.span⟩
        some (.settleLeft place inner (.binary grouped op a right) c)
      else
        match right with
        | .param leaf index =>
          let grouped : Place := ⟨leaf.slot, Span.combine a.tag.span leaf.span⟩
          let moved : Tree Place := .param ⟨old.slot, leaf.span⟩ index
          some (.settleLeft place inner (.binary grouped op a moved) c)
        | _ => none
    else
      none
  | _ => none

/-- The first rule of a list that applies. -/
def firstOf (rules : List Rule) : Rule := fun place op left right =>
  rules.findSome? fun rule => rule place op left right

/-- The rules for an operator, in the order in which they are tried. -/
def rules : Operator → List Rule
  | .add | .sub => [fold, dropZero, mergeRight, mergeLeft, rotate, surface, cancel]
  | .mul => [fold, dropFactor, mergeRight, mergeLeft, rotate, surface]
  | .div => [fold, dropDivisor, cancel]

/-- Applies one rule to the topmost node of a tree whose operands are simple. -/
def step : Tree Place → Step
  | .literal _ _ => .done
  | .param _ _ => .done
  | .negate place operand =>
    match operand with
    | .literal _ value => .again (.literal place (-value))
    | .negate _ inner => .again (inner.withTag place)
    | _ => .done
  | .binary place op left right => (firstOf (rules op) place op left right).getD .done

/-! ## Every step makes progress -/

/-- What decides between trees of equal size: the size of the right operand, one more if
that is no literal. -/
def rightWeight : Tree Place → Nat
  | .binary _ _ _ right => right.size + (if right.literal? = none then 1 else 0)
  | _ => 0

/-- The step makes progress on a tree. -/
def Step.Progress (t : Tree Place) : Step → Prop
  | .done => True
  | .again u => u.size < t.size
  | .settleLeft place op left right =>
    left.size < t.size ∧ left.size + right.size + 1 ≤ t.size ∧
      rightWeight (.binary place op left right) < rightWeight t

/-- Every outcome of a rule makes progress. -/
def Progressive (rule : Rule) : Prop :=
  ∀ place op left right s, rule place op left right = some s →
    s.Progress (.binary place op left right)

theorem fold_progressive : Progressive fold := by
  intro place op left right s h
  have hl := left.size_pos
  unfold fold at h
  split at h
  · obtain ⟨v, -, rfl⟩ := Option.map_eq_some_iff.1 h
    simp only [Step.Progress, Tree.size]
    omega
  · cases h

theorem dropZero_progressive : Progressive dropZero := by
  intro place op left right s h
  have hl := left.size_pos
  have hr := right.size_pos
  unfold dropZero at h
  split at h
  · cases h
    split <;> simp only [Step.Progress, Tree.size, Tree.size_withTag] <;> omega
  · split at h
    · cases h
      simp only [Step.Progress, Tree.size, Tree.size_withTag]
      omega
    · cases h

theorem dropFactor_progressive : Progressive dropFactor := by
  intro place op left right s h
  have hl := left.size_pos
  have hr := right.size_pos
  unfold dropFactor at h
  split at h
  · cases h
    simp only [Step.Progress, Tree.size]
    omega
  · split at h
    · cases h
      simp only [Step.Progress, Tree.size, Tree.size_withTag]
      omega
    · split at h
      · cases h
        simp only [Step.Progress, Tree.size, Tree.size_withTag]
        omega
      · cases h

theorem dropDivisor_progressive : Progressive dropDivisor := by
  intro place op left right s h
  have hl := left.size_pos
  unfold dropDivisor at h
  split at h
  · cases h
    simp only [Step.Progress, Tree.size]
    omega
  · cases h

theorem cancel_progressive : Progressive cancel := by
  intro place op left right s h
  unfold cancel at h
  split at h
  · split at h
    · cases h
      simp [Step.Progress, Tree.size]
    · cases h
  · split at h
    · cases h
      simp [Step.Progress, Tree.size]
    · cases h
  · cases h

theorem mergeRight_progressive : Progressive mergeRight := by
  intro place op left right s h
  have hl := left.size_pos
  unfold mergeRight at h
  split at h
  · rename_i l at_ inner a b _
    have ha := a.size_pos
    have hb := b.size_pos
    split at h
    · split at h
      · obtain ⟨v, -, rfl⟩ := Option.map_eq_some_iff.1 h
        simp only [Step.Progress, Tree.size]
        omega
      · obtain ⟨v, -, rfl⟩ := Option.map_eq_some_iff.1 h
        simp only [Step.Progress, Tree.size]
        omega
      · cases h
    · cases h
  · cases h

theorem mergeLeft_progressive : Progressive mergeLeft := by
  intro place op left right s h
  have hr := right.size_pos
  unfold mergeLeft at h
  split at h
  · rename_i at_ inner a b r chain _ _
    have ha := a.size_pos
    have hb := b.size_pos
    split at h
    · split at h
      · obtain ⟨v, -, rfl⟩ := Option.map_eq_some_iff.1 h
        simp only [Step.Progress, Tree.size]
        omega
      · obtain ⟨v, -, rfl⟩ := Option.map_eq_some_iff.1 h
        simp only [Step.Progress, Tree.size]
        omega
      · cases h
    · cases h
  · cases h

theorem rotate_progressive : Progressive rotate := by
  intro place op left right s h
  unfold rotate at h
  split at h
  · rename_i old inner c d
    have hc := c.size_pos
    have hd := d.size_pos
    split at h
    · cases h
      simp only [Step.Progress, rightWeight, Tree.size, Tree.literal?]
      refine ⟨by omega, by omega, ?_⟩
      split <;> simp only [reduceCtorEq, if_true, if_false] <;> omega
    · cases h
  · cases h

theorem surface_progressive : Progressive surface := by
  intro place op left right s h
  have hr := right.size_pos
  unfold surface at h
  split at h
  · rename_i old inner a c
    split at h
    · rename_i hcond
      obtain ⟨-, hright, hc⟩ := hcond
      obtain ⟨v, hv⟩ := Option.isSome_iff_exists.1 hc
      have hlit := Tree.literal?_eq_some hv
      have hcsize : c.size = 1 := by rw [hlit]; rfl
      split at h
      · cases h
        simp only [Step.Progress, rightWeight, Tree.size, hv, hright]
        simp [hcsize]
        omega
      · split at h
        · cases h
          simp only [Step.Progress, rightWeight, Tree.size, hv]
          simp [hcsize, Tree.literal?]
        · cases h
    · cases h
  · cases h

theorem firstOf_progressive {rules : List Rule} (h : ∀ rule ∈ rules, Progressive rule) :
    Progressive (firstOf rules) := by
  intro place op left right s hs
  obtain ⟨rule, hmem, hrule⟩ := List.exists_of_findSome?_eq_some hs
  exact h rule hmem place op left right s hrule

theorem rules_progressive (op : Operator) : ∀ rule ∈ rules op, Progressive rule := by
  cases op <;>
    simp [rules, fold_progressive, dropZero_progressive, dropFactor_progressive,
      dropDivisor_progressive, cancel_progressive, mergeRight_progressive,
      mergeLeft_progressive,
      rotate_progressive, surface_progressive]

theorem step_progress (t : Tree Place) : (step t).Progress t := by
  cases t with
  | literal => trivial
  | param => trivial
  | negate place operand =>
    cases operand with
    | literal => simp [step, Step.Progress, Tree.size]
    | param => trivial
    | negate _ inner =>
      simp only [step, Step.Progress, Tree.size, Tree.size_withTag]
      omega
    | binary => trivial
  | binary place op left right =>
    simp only [step]
    cases h : firstOf (rules op) place op left right with
    | none => trivial
    | some s => exact firstOf_progressive (rules_progressive op) place op left right s h

/-- A smaller left operand leaves an operation within the size that it had. -/
theorem size_binary_le {place : Place} {op : Operator} {u left right t : Tree Place}
    (hu : u.size ≤ left.size) (h : left.size + right.size + 1 ≤ t.size) :
    (Tree.binary place op u right).size ≤ t.size := by
  simp only [Tree.size]
  omega

/-- Applies rules to the topmost node of a tree whose operands are simple, and to operands
that a rule builds anew, until none applies. -/
def settleSized (t : Tree Place) : { u : Tree Place // u.size ≤ t.size } :=
  match h : step t with
  | .done => ⟨t, Nat.le_refl _⟩
  | .again u =>
    have hprogress : (Step.again u).Progress t := h ▸ step_progress t
    have hlt : u.size < t.size := hprogress
    let settled := settleSized u
    ⟨settled.1, Nat.le_of_lt (Nat.lt_of_le_of_lt settled.2 hlt)⟩
  | .settleLeft place op left right =>
    have hprogress : (Step.settleLeft place op left right).Progress t :=
      h ▸ step_progress t
    have _hleft : left.size < t.size := hprogress.1
    have hsize : left.size + right.size + 1 ≤ t.size := hprogress.2.1
    have _hweight : rightWeight (.binary place op left right) < rightWeight t :=
      hprogress.2.2
    let settled := settleSized left
    have hle : (Tree.binary place op settled.1 right).size ≤ t.size :=
      size_binary_le settled.2 hsize
    let whole := settleSized (.binary place op settled.1 right)
    ⟨whole.1, Nat.le_trans whole.2 hle⟩
termination_by (t.size, rightWeight t)
decreasing_by
  · exact Prod.Lex.left _ _ hlt
  · exact Prod.Lex.left _ _ _hleft
  · rcases Nat.lt_or_eq_of_le hle with hlt | heq
    · exact Prod.Lex.left _ _ hlt
    · rw [heq]
      exact Prod.Lex.right _ _hweight

/-- The tree that `settleSized` ends with. -/
def settle (t : Tree Place) : Tree Place :=
  (settleSized t).1

end Simplify

/-- The simple form of a tree, from the leaves up. -/
def Tree.simplify : Tree Place → Tree Place
  | .literal place value => .literal place value
  | .param place index => .param place index
  | .negate place operand => Simplify.settle (.negate place operand.simplify)
  | .binary place op left right =>
    Simplify.settle (.binary place op left.simplify right.simplify)

end Abacus
