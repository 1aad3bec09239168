import Abacus.Tree

set_option autoImplicit false

/-!
# The meaning of a tree

`Operator.exactValue?` says what the operators do to integers of any size, and
`Operator.compute?_eq` that 64-bit operands give the same, reduced to 64 bits.

`Tree.eval` is the reference for everything that computes a tree.  It goes by structural
recursion: first the left operand, then the right one, then the node itself, and it stops
at the first division whose divisor is zero.  That division is named by its tag, so one
definition serves trees that are tagged with spans as well as trees that are tagged with
places.

`Tree.Refines` compares trees by their values only.  It is the order in which simplifying
moves: a division by zero may disappear, a value may not change.
-/

namespace Abacus

namespace Operator

/-- The value of an operation on integers of any size; a quotient is truncated toward
zero. -/
def exactValue? (op : Operator) (left right : Int) : Option Int :=
  match op with
  | add => some (left + right)
  | sub => some (left - right)
  | mul => some (left * right)
  | div => if right = 0 then none else some (left.tdiv right)

/-- The value of an operation on operands that may have none: that of the operation on
integers, reduced to 64 bits. -/
def combine? (op : Operator) (left right : Option Int64) : Option Int64 := do
  let value ← op.exactValue? (← left).toInt (← right).toInt
  return Int64.ofInt value

/-- An operator computes the exact value, reduced to 64 bits. -/
theorem compute?_eq (op : Operator) (left right : Int64) :
    op.compute? left right = (op.exactValue? left.toInt right.toInt).map Int64.ofInt := by
  cases op with
  | add => simp [compute?, exactValue?, Int64.ofInt_add, Int64.ofInt_toInt]
  | sub => simp [compute?, exactValue?, Int64.ofInt_sub, Int64.ofInt_toInt]
  | mul => simp [compute?, exactValue?, Int64.ofInt_mul, Int64.ofInt_toInt]
  | div =>
    have hzero : right.toInt = 0 ↔ right = 0 := by
      rw [← Int64.toInt_zero, Int64.toInt_inj]
    have hquotient : left / right = Int64.ofInt (left.toInt.tdiv right.toInt) := by
      rw [← Int64.toInt_inj, Int64.toInt_div, Int64.toInt_ofInt]
    by_cases h : right = 0 <;> simp [compute?, exactValue?, hzero, hquotient, h]

@[simp] theorem combine?_some (op : Operator) (left right : Int64) :
    op.combine? (some left) (some right) = op.compute? left right := by
  rw [compute?_eq]
  exact Option.map_eq_bind.symm

@[simp] theorem combine?_none_left (op : Operator) (right : Option Int64) :
    op.combine? none right = none := rfl

@[simp] theorem combine?_none_right (op : Operator) (left : Option Int64) :
    op.combine? left none = none := by
  cases left <;> rfl

/-- An operation has no value exactly if an operand has none or it divides by zero. -/
theorem combine?_eq_none_iff {op : Operator} {left right : Option Int64} :
    op.combine? left right = none ↔
      left = none ∨ right = none ∨ op = .div ∧ right = some 0 := by
  cases left with
  | none => simp
  | some l =>
    cases right with
    | none => simp
    | some r => simp [compute?_eq_none_iff]

end Operator

namespace Tree

variable {α β : Type}

/-- The value of a tree, or the tag of the first division by zero.  A position without an
argument counts as zero; no well-formed tree has one. -/
def eval (args : List Int64) : Tree α → Except α Int64
  | literal _ value => .ok value
  | param _ index => .ok (args.getD index 0)
  | negate _ operand =>
    match operand.eval args with
    | .ok value => .ok (-value)
    | .error e => .error e
  | binary tag op left right =>
    match left.eval args, right.eval args with
    | .error e, _ => .error e
    | .ok _, .error e => .error e
    | .ok l, .ok r =>
      match op.compute? l r with
      | some value => .ok value
      | none => .error tag

/-- The positions of the parameters of a tree. -/
def params : Tree α → List Nat
  | literal _ _ => []
  | param _ index => [index]
  | negate _ operand => operand.params
  | binary _ _ left right => left.params ++ right.params

/-- The same tree with other tags. -/
def map (f : α → β) : Tree α → Tree β
  | literal tag value => literal (f tag) value
  | param tag index => param (f tag) index
  | negate tag operand => negate (f tag) (operand.map f)
  | binary tag op left right => binary (f tag) op (left.map f) (right.map f)

/-! ## Evaluation, node by node -/

@[simp] theorem eval_literal (args : List Int64) (tag : α) (value : Int64) :
    (literal tag value).eval args = .ok value := rfl

theorem eval_negate (args : List Int64) (tag : α) (operand : Tree α) :
    (negate tag operand).eval args =
      match operand.eval args with
      | .ok value => .ok (-value)
      | .error e => .error e := rfl

theorem eval_binary (args : List Int64) (tag : α) (op : Operator) (left right : Tree α) :
    (binary tag op left right).eval args =
      match left.eval args, right.eval args with
      | .error e, _ => .error e
      | .ok _, .error e => .error e
      | .ok l, .ok r =>
        match op.compute? l r with
        | some value => .ok value
        | none => .error tag := rfl

theorem eval_negate_eq_ok {args : List Int64} {tag : α} {operand : Tree α} {v : Int64} :
    (negate tag operand).eval args = .ok v ↔ ∃ u, operand.eval args = .ok u ∧ -u = v := by
  rw [eval_negate]
  cases operand.eval args <;> simp

theorem eval_negate_eq_error {args : List Int64} {tag e : α} {operand : Tree α} :
    (negate tag operand).eval args = .error e ↔ operand.eval args = .error e := by
  rw [eval_negate]
  cases operand.eval args <;> simp

theorem eval_binary_eq_ok {args : List Int64} {tag : α} {op : Operator}
    {left right : Tree α} {v : Int64} :
    (binary tag op left right).eval args = .ok v ↔
      ∃ l r, left.eval args = .ok l ∧ right.eval args = .ok r ∧
        op.compute? l r = some v := by
  rw [eval_binary]
  cases left.eval args with
  | error e => simp
  | ok l =>
    cases right.eval args with
    | error e => simp
    | ok r => cases h : op.compute? l r <;> simp [h]

/-- A binary node fails where its left operand does, then where its right one does, and
last at itself. -/
theorem eval_binary_eq_error {args : List Int64} {tag e : α} {op : Operator}
    {left right : Tree α} :
    (binary tag op left right).eval args = .error e ↔
      left.eval args = .error e ∨
      (∃ l, left.eval args = .ok l ∧ right.eval args = .error e) ∨
      (∃ l r, left.eval args = .ok l ∧ right.eval args = .ok r ∧ op.compute? l r = none ∧
        tag = e) := by
  rw [eval_binary]
  cases left.eval args with
  | error e => simp
  | ok l =>
    cases right.eval args with
    | error e => simp
    | ok r => cases h : op.compute? l r <;> simp [h]

/-- The tag of the topmost node matters only where the evaluation fails. -/
theorem eval_withTag_eq_ok {args : List Int64} {t : Tree α} {tag : α} {v : Int64} :
    (t.withTag tag).eval args = .ok v ↔ t.eval args = .ok v := by
  cases t with
  | literal => rfl
  | param => rfl
  | negate => simp only [withTag, eval_negate_eq_ok]
  | binary => simp only [withTag, eval_binary_eq_ok]

theorem toOption_eval_negate (args : List Int64) (tag : α) (operand : Tree α) :
    ((negate tag operand).eval args).toOption =
      (operand.eval args).toOption.map (-·) := by
  rw [eval_negate]
  cases operand.eval args <;> rfl

theorem toOption_eval_binary (args : List Int64) (tag : α) (op : Operator)
    (left right : Tree α) :
    ((binary tag op left right).eval args).toOption =
      op.combine? (left.eval args).toOption (right.eval args).toOption := by
  rw [eval_binary]
  cases left.eval args with
  | error e => rfl
  | ok l =>
    cases right.eval args with
    | error e => rfl
    | ok r =>
      show _ = op.combine? (some l) (some r)
      rw [Operator.combine?_some]
      dsimp only
      cases op.compute? l r <;> rfl

theorem eval_of_literal? {args : List Int64} {t : Tree α} {value : Int64}
    (h : t.literal? = some value) : t.eval args = .ok value := by
  rw [literal?_eq_some h]
  rfl

@[simp] theorem params_withTag (t : Tree α) (tag : α) :
    (t.withTag tag).params = t.params := by
  cases t <;> rfl

/-- Evaluation treats tags as mere names. -/
theorem eval_map (f : α → β) (args : List Int64) (t : Tree α) :
    (t.map f).eval args = (t.eval args).mapError f := by
  induction t with
  | literal => rfl
  | param => rfl
  | negate tag operand ih =>
    simp only [map, eval_negate, ih]
    cases operand.eval args <;> rfl
  | binary tag op left right ihl ihr =>
    simp only [map, eval_binary, ihl, ihr]
    cases left.eval args with
    | error e => rfl
    | ok l =>
      cases right.eval args with
      | error e => rfl
      | ok r =>
        have hl : Except.mapError f (.ok l) = .ok l := rfl
        have hr : Except.mapError f (.ok r) = .ok r := rfl
        simp only [hl, hr]
        cases op.compute? l r <;> rfl

/-! ## Comparing trees by their values -/

/-- Wherever the first tree has a value, the second one has the same. -/
def Refines (t u : Tree α) : Prop :=
  ∀ args v, t.eval args = .ok v → u.eval args = .ok v

theorem Refines.refl (t : Tree α) : t.Refines t := fun _ _ h => h

theorem Refines.trans {t u w : Tree α} (htu : t.Refines u) (huw : u.Refines w) :
    t.Refines w :=
  fun args v h => huw args v (htu args v h)

theorem Refines.negate {t u : Tree α} (tag : α) (h : t.Refines u) :
    (Tree.negate tag t).Refines (.negate tag u) := by
  intro args v hv
  obtain ⟨w, hw, rfl⟩ := eval_negate_eq_ok.mp hv
  exact eval_negate_eq_ok.mpr ⟨w, h args w hw, rfl⟩

theorem Refines.binary {l l' r r' : Tree α} (tag : α) (op : Operator) (hl : l.Refines l')
    (hr : r.Refines r') : (Tree.binary tag op l r).Refines (.binary tag op l' r') := by
  intro args v hv
  obtain ⟨x, y, hx, hy, hxy⟩ := eval_binary_eq_ok.mp hv
  exact eval_binary_eq_ok.mpr ⟨x, y, hl args x hx, hr args y hy, hxy⟩

end Tree

end Abacus
