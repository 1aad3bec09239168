import Abacus.Operator

set_option autoImplicit false

/-!
# Expression trees

The abstract form of an expression: literals, parameters by position, negations and binary
operations.  Parentheses, layout and the names of parameters are gone.  Every node carries
a tag.  Reading an expression tags each node with the span that it was read from; other
passes use tags of their own.
-/

namespace Abacus

/-- An expression whose nodes carry tags. -/
inductive Tree (α : Type) where
  | literal (tag : α) (value : Int64)
  /-- The parameter at a position of the parameter list. -/
  | param (tag : α) (index : Nat)
  | negate (tag : α) (operand : Tree α)
  | binary (tag : α) (op : Operator) (left right : Tree α)
  deriving DecidableEq, Repr

namespace Tree

variable {α β : Type}

instance [Inhabited α] : Inhabited (Tree α) := ⟨.literal default 0⟩

/-- The tag of the topmost node. -/
def tag : Tree α → α
  | literal a _ => a
  | param a _ => a
  | negate a _ => a
  | binary a _ _ _ => a

/-- The same tree with another tag on its topmost node. -/
def withTag (a : α) : Tree α → Tree α
  | literal _ value => literal a value
  | param _ index => param a index
  | negate _ operand => negate a operand
  | binary _ op left right => binary a op left right

/-- The value of a tree that is a literal. -/
def literal? : Tree α → Option Int64
  | literal _ value => some value
  | _ => none

/-- The number of nodes. -/
def size : Tree α → Nat
  | literal _ _ => 1
  | param _ _ => 1
  | negate _ operand => operand.size + 1
  | binary _ _ left right => left.size + right.size + 1

@[simp] theorem tag_withTag (a : α) (t : Tree α) : (t.withTag a).tag = a := by
  cases t <;> rfl

@[simp] theorem size_withTag (a : α) (t : Tree α) : (t.withTag a).size = t.size := by
  cases t <;> rfl

theorem size_pos (t : Tree α) : 0 < t.size := by
  cases t <;> simp [size]

theorem literal?_eq_some {t : Tree α} {value : Int64} (h : t.literal? = some value) :
    t = .literal t.tag value := by
  cases t <;> simp_all [literal?, tag]

end Tree

end Abacus
