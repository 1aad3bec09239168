import Abacus.Scope
import Abacus.Token.Scan
import Abacus.Tree

set_option autoImplicit false

/-!
# Reading an expression

The grammar has two levels of binary operators and signs:

    expression := sum end
    sum        := product (('+' | '-') product)*
    product    := signed (('*' | '/') signed)*
    signed     := ('+' | '-')* atom
    atom       := literal | identifier | '(' sum ')'

Tokens are taken one at a time.  At any moment the reader waits either for an operand or
for what may follow one, and keeps what is still open: on each level of parentheses at
most one sum and one product that lack their right operand, and the signs in front of the
operand to come.  Because operators are left-associative, an operation is built as soon as
its right operand is complete.

Whatever contains no parameter is computed on the way, so it ends up as a single literal.
Dividing by a literal zero and negating the least literal are violations.  The span of a
node runs over its operands and over the signs in front of it; the parentheses around an
operand are not part of its span.
-/

namespace Abacus

/-- The default limit on open parentheses. -/
def defaultMaxDepth : Nat := 500

namespace Tree

/-- The operation on two operands, computed at once if both are literals and there is a
value. -/
def join (op : Operator) (left right : Tree Span) : Tree Span :=
  let span := Span.combine left.tag right.tag
  match left.literal?, right.literal? with
  | some l, some r =>
    match op.compute? l r with
    | some value => .literal span value
    | none => .binary span op left right
  | _, _ => .binary span op left right

end Tree

namespace Parse

/-- A run of signs in front of an operand: where it starts, and whether it holds an odd
number of minus signs. -/
structure Signs where
  start : Nat
  negative : Bool
  deriving DecidableEq, Repr

/-- A left operand with its operator, waiting for the right operand. -/
structure Pending where
  left : Tree Span
  op : Operator
  deriving DecidableEq, Repr

/-- What surrounds an operand on one level of parentheses. -/
structure Context where
  sum : Option Pending
  product : Option Pending
  signs : Option Signs
  deriving DecidableEq, Repr

/-- The context at the start of an expression or behind an opening parenthesis. -/
def Context.empty : Context := ⟨none, none, none⟩

/-- A group that is still open: the context of the group as an operand, and the span of
its opening parenthesis. -/
structure Group where
  context : Context
  opening : Span
  deriving DecidableEq, Repr

/-- What has been read so far; the open groups are listed from the inside out. -/
inductive State where
  /-- An operand, or a sign in front of it, has to follow. -/
  | operand (context : Context) (groups : List Group)
  /-- A signed operand or product has been read, which the sum on its left may still
  take. -/
  | operator (sum : Option Pending) (groups : List Group) (operand : Tree Span)
  deriving DecidableEq, Repr

/-- Adds a sign to the run in front of an operand. -/
def addSign (signs : Option Signs) (token : Span) (minus : Bool) : Signs :=
  match signs with
  | none => ⟨token.start, minus⟩
  | some run => ⟨run.start, run.negative != minus⟩

/-- Applies a run of signs to the operand behind it.  A literal takes the sign itself, if
the negated value fits; without an odd number of minus signs the operand stays as it
is. -/
def applySigns (signs : Option Signs) (atom : Tree Span) : Except Violation (Tree Span) :=
  match signs with
  | some ⟨start, true⟩ =>
    let span : Span := ⟨start, atom.tag.stop⟩
    match atom.literal? with
    | some value =>
      if value = Int64.minValue then .error ⟨.valueOutOfRange, span⟩
      else .ok (.literal span (-value))
    | none => .ok (.negate span atom)
  | _ => .ok atom

/-- Completes a product with its right operand; a divisor must not be a literal zero. -/
def closeProduct (product : Option Pending) (right : Tree Span) :
    Except Violation (Tree Span) :=
  match product with
  | none => .ok right
  | some pending =>
    if pending.op = .div ∧ right.literal? = some 0 then
      .error ⟨.divisionByZero, right.tag⟩
    else
      .ok (Tree.join pending.op pending.left right)

/-- Completes a sum with its right operand. -/
def closeSum (sum : Option Pending) (right : Tree Span) : Tree Span :=
  match sum with
  | none => right
  | some pending => Tree.join pending.op pending.left right

/-- Takes an atom in its context: first its signs, then the product that waits for it. -/
def takeAtom (context : Context) (groups : List Group) (atom : Tree Span) :
    Except Violation State := do
  let signed ← applySigns context.signs atom
  let operand ← closeProduct context.product signed
  return .operator context.sum groups operand

/-- The violation of a token that cannot follow an operand, described by `found`. -/
def unexpectedAfterOperand (groups : List Group) (found : String) (span : Span) :
    Violation :=
  match groups with
  | [] => ⟨.illegalToken "operator or end of input" found, span⟩
  | group :: _ =>
    ⟨.expectedCloseParen group.opening found, ⟨group.opening.start, span.stop⟩⟩

/-- Takes one token. -/
def step (names : List String) (maxDepth : Nat) (state : State) (token : Token) :
    Except Violation State :=
  match state with
  | .operand context groups =>
    match token.kind with
    | .operator .add =>
      .ok (.operand
        { context with signs := some (addSign context.signs token.span false) } groups)
    | .operator .sub =>
      .ok (.operand
        { context with signs := some (addSign context.signs token.span true) } groups)
    | .int value => takeAtom context groups (.literal token.span value)
    | .ident name =>
      match names.idxOf? name with
      | some index => takeAtom context groups (.param token.span index)
      | none => .error ⟨.undefinedVariable name, token.span⟩
    | .openParen =>
      if groups.length < maxDepth then
        .ok (.operand .empty (⟨context, token.span⟩ :: groups))
      else .error ⟨.maxDepthExceeded maxDepth, token.span⟩
    | kind => .error ⟨.illegalToken "expression" kind.describe, token.span⟩
  | .operator sum groups operand =>
    match token.kind, groups with
    | .operator op, _ =>
      if op.isAdditive then
        .ok (.operand ⟨some ⟨closeSum sum operand, op⟩, none, none⟩ groups)
      else .ok (.operand ⟨sum, some ⟨operand, op⟩, none⟩ groups)
    | .closeParen, group :: outer => takeAtom group.context outer (closeSum sum operand)
    | kind, _ => .error (unexpectedAfterOperand groups kind.describe token.span)

/-- Takes the end of the input, at the given offset. -/
def finish (state : State) (offset : Nat) : Except Violation (Tree Span) :=
  match state with
  | .operand _ _ => .error ⟨.illegalToken "expression" Token.describeEnd, .point offset⟩
  | .operator sum [] operand => .ok (closeSum sum operand)
  | .operator _ groups _ =>
    .error (unexpectedAfterOperand groups Token.describeEnd (.point offset))

/-- The state before the first token. -/
def start : State := .operand .empty []

/-- Takes all tokens of a scan and then its end. -/
def ofScan (names : List String) (maxDepth : Nat) (scan : Scan) :
    Except Violation (Tree Span) := do
  let state ← scan.tokens.foldlM (step names maxDepth) start
  let offset ← scan.ending
  finish state offset

end Parse

/-- Reads an expression against a list of parameter names, with at most `maxDepth`
parentheses open at a time. -/
def Tree.parse (source : String) (names : List String) (maxDepth : Nat) :
    Except ParseError (Tree Span) :=
  let result : Except Violation (Tree Span) :=
    match Scope.fault? names with
    | some cause => .error ⟨cause, .nowhere⟩
    | none => Parse.ofScan names maxDepth (Scan.ofText source.toList)
  result.mapError (·.inSource source)

end Abacus
