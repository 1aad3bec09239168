import Abacus.Proofs.Language
import Abacus.Proofs.Machine
import Mathlib.Order.MinMax

set_option autoImplicit false

/-!
# Other numbers for the parameters and other offsets

`Tree.rename` gives the parameters of a tree other positions and leaves everything else
alone.  Reading against a list of names in which the names of another list have other
positions gives the renamed tree, or the same violation.  In the same way, reading tokens
whose offsets were moved, in their order, gives the tree with its offsets moved.  A
renamed tree has the value of the tree if its arguments are where their parameters are,
and its code has the same length up to each node.

Main statements:

* `Parse.ofScan_relabel`: reading with other positions and offsets gives the relabelled
  tree.
* `Parse.ofScan_rename`: reading against other positions gives the renamed tree.
* `Tree.eval_rename`: the value of a renamed tree.
-/

namespace Abacus

namespace Tree

variable {α : Type} (f : Nat → Nat)

/-- The same tree with its parameters in other positions. -/
def rename : Tree α → Tree α
  | literal tag value => literal tag value
  | param tag index => param tag (f index)
  | negate tag operand => negate tag operand.rename
  | binary tag op left right => binary tag op left.rename right.rename

@[simp] theorem tag_rename (t : Tree α) : (t.rename f).tag = t.tag := by
  cases t <;> rfl

@[simp] theorem literal?_rename (t : Tree α) : (t.rename f).literal? = t.literal? := by
  cases t <;> rfl

@[simp] theorem withTag_rename (t : Tree α) (tag : α) :
    (t.rename f).withTag tag = (t.withTag tag).rename f := by
  cases t <;> rfl

@[simp] theorem descendants_rename (t : Tree α) :
    (t.rename f).descendants = t.descendants := by
  induction t with
  | literal => rfl
  | param => rfl
  | negate _ _ ih => simp only [rename, descendants, ih]
  | binary _ _ _ _ ihl ihr => simp only [rename, descendants, ihl, ihr]

/-- Every node of a renamed tree gets the slot that it has without renaming. -/
theorem placed_rename (base slot : Nat) (t : Tree Span) :
    (t.rename f).placed base slot = (t.placed base slot).rename f := by
  induction t generalizing base slot with
  | literal => rfl
  | param => rfl
  | negate _ _ ih => simp only [rename, placed, descendants_rename, ih]
  | binary _ _ _ _ ihl ihr => simp only [rename, placed, descendants_rename, ihl, ihr]

variable {f}

/-- A renamed tree has the value of the tree if the arguments have moved along with their
parameters. -/
theorem eval_rename {args args' : List Int64}
    (h : ∀ i, args'.getD (f i) 0 = args.getD i 0) (t : Tree α) :
    (t.rename f).eval args' = t.eval args := by
  induction t with
  | literal => rfl
  | param tag index => exact congrArg Except.ok (h index)
  | negate _ _ ih => simp only [rename, eval, ih]
  | binary _ _ _ _ ihl ihr => simp only [rename, eval, ihl, ihr]

end Tree

/-! ## Other offsets

The reader compares offsets, when it encloses two spans, and asks nothing else about them.
So they can be moved by any function that keeps their order, be it one that makes them all
the same. -/

variable {o : Nat → Nat}

/-- The span between the moved ends. -/
def Span.move (o : Nat → Nat) (span : Span) : Span := ⟨o span.start, o span.stop⟩

theorem Span.combine_move (ho : Monotone o) (a b : Span) :
    combine (a.move o) (b.move o) = (combine a b).move o := by
  simp only [combine, move, ho.map_min, ho.map_max]

/-- The cause with the parenthesis of an unclosed group moved. -/
def ParseError.Cause.move (o : Nat → Nat) : Cause → Cause
  | expectedCloseParen opening found => expectedCloseParen (opening.move o) found
  | cause => cause

def Violation.move (o : Nat → Nat) (v : Violation) : Violation :=
    ⟨v.cause.move o, v.span.move o⟩

def Token.move (o : Nat → Nat) (token : Token) : Token :=
    { token with span := token.span.move o }

def Scan.move (o : Nat → Nat) (scan : Scan) : Scan :=
  ⟨scan.tokens.map (Token.move o), (scan.ending.map o).mapError (Violation.move o)⟩

theorem Violation.move_id (v : Violation) : v.move id = v := by
  obtain ⟨cause, span⟩ := v
  cases cause <;> rfl

theorem Scan.move_id (scan : Scan) : scan.move id = scan := by
  obtain ⟨tokens, ending⟩ := scan
  have htokens : tokens.map (Token.move id) = tokens := List.map_id tokens
  rw [move, htokens]
  cases ending with
  | ok stop => rfl
  | error v => exact congrArg (Scan.mk tokens <| .error ·) v.move_id

namespace Tree

variable (f o : Nat → Nat)

/-- The same tree with its parameters in other positions and its spans moved. -/
def relabel (t : Tree Span) : Tree Span := (t.rename f).map (Span.move o)

theorem tag_relabel (t : Tree Span) : (t.relabel f o).tag = t.tag.move o := by
  cases t <;> rfl

theorem literal?_relabel (t : Tree Span) : (t.relabel f o).literal? = t.literal? := by
  cases t <;> rfl

variable {o}

theorem join_relabel (ho : Monotone o) (op : Operator) (left right : Tree Span) :
    join op (left.relabel f o) (right.relabel f o) =
      (join op left right).relabel f o := by
  simp only [join, tag_relabel, literal?_relabel, Span.combine_move ho]
  cases left.literal? with
  | none => rfl
  | some l =>
    cases right.literal? with
    | none => rfl
    | some r =>
      dsimp only
      cases op.compute? l r <;> rfl

theorem relabel_id (t : Tree Span) : t.relabel f id = t.rename f := by
  unfold relabel
  induction t with
  | literal => rfl
  | param => rfl
  | negate span _ ih => exact congrArg (negate span) ih
  | binary span op _ _ ihl ihr => exact congrArg₂ (binary span op) ihl ihr

end Tree

/-! ## Reading with other positions and offsets -/

namespace Parse

variable (f o : Nat → Nat)

/-- The outcome with what it holds replaced. -/
def relabelled {α β : Type} (g : α → β) (r : Except Violation α) : Except Violation β :=
  (r.map g).mapError (Violation.move o)

variable {o} in
theorem relabelled_bind {α β γ δ : Type} {g : α → γ} {g' : β → δ} {x : Except Violation α}
    {k : α → Except Violation β} {k' : γ → Except Violation δ}
    (h : ∀ a, k' (g a) = relabelled o g' (k a)) :
    (relabelled o g x >>= k') = relabelled o g' (x >>= k) := by
  cases x with
  | error v => rfl
  | ok a => exact h a

def Signs.move (r : Signs) : Signs := { r with start := o r.start }

def Pending.relabel (p : Pending) : Pending := { p with left := p.left.relabel f o }

def Context.relabel (c : Context) : Context :=
  ⟨c.sum.map (Pending.relabel f o), c.product.map (Pending.relabel f o),
    c.signs.map (Signs.move o)⟩

def Group.relabel (g : Group) : Group := ⟨g.context.relabel f o, g.opening.move o⟩

/-- The state with other positions in all its operands, and all offsets moved. -/
def State.relabel : State → State
  | .operand context groups =>
    .operand (context.relabel f o) (groups.map (Group.relabel f o))
  | .operator sum groups t =>
    .operator (sum.map (Pending.relabel f o)) (groups.map (Group.relabel f o))
      (t.relabel f o)

theorem addSign_move (signs : Option Signs) (span : Span) (minus : Bool) :
    addSign (signs.map (Signs.move o)) (span.move o) minus =
      (addSign signs span minus).move o := by
  cases signs <;> rfl

theorem applySigns_relabel (signs : Option Signs) (t : Tree Span) :
    applySigns (signs.map (Signs.move o)) (t.relabel f o) =
      relabelled o (Tree.relabel f o) (applySigns signs t) := by
  cases signs with
  | none => rfl
  | some run =>
    obtain ⟨start, negative⟩ := run
    cases negative with
    | false => rfl
    | true =>
      simp only [applySigns, Option.map_some, Signs.move, Tree.tag_relabel,
        Tree.literal?_relabel]
      split
      · split <;> rfl
      · rfl

theorem unexpectedAfterOperand_relabel (groups : List Group) (found : String)
    (span : Span) :
    unexpectedAfterOperand (groups.map (Group.relabel f o)) found (span.move o) =
      (unexpectedAfterOperand groups found span).move o := by
  cases groups <;> rfl

variable {o}

theorem closeSum_relabel (ho : Monotone o) (sum : Option Pending) (right : Tree Span) :
    closeSum (sum.map (Pending.relabel f o)) (right.relabel f o) =
      (closeSum sum right).relabel f o := by
  cases sum with
  | none => rfl
  | some pending => exact Tree.join_relabel f ho pending.op pending.left right

theorem closeProduct_relabel (ho : Monotone o) (product : Option Pending)
    (right : Tree Span) :
    closeProduct (product.map (Pending.relabel f o)) (right.relabel f o) =
      relabelled o (Tree.relabel f o) (closeProduct product right) := by
  cases product with
  | none => rfl
  | some pending =>
    simp only [closeProduct, Option.map_some, Pending.relabel, Tree.tag_relabel,
      Tree.literal?_relabel, Tree.join_relabel f ho]
    split <;> rfl

theorem takeAtom_relabel (ho : Monotone o) (context : Context) (groups : List Group)
    (atom : Tree Span) :
    takeAtom (context.relabel f o) (groups.map (Group.relabel f o)) (atom.relabel f o) =
      relabelled o (State.relabel f o) (takeAtom context groups atom) := by
  unfold takeAtom
  rw [Context.relabel, applySigns_relabel]
  refine relabelled_bind fun signed => ?_
  rw [closeProduct_relabel f ho]
  exact relabelled_bind fun operand => rfl

variable {f} {names names' : List String} {maxDepth : Nat}

/-- An identifier stands for the renamed parameter. -/
def Renames (f : Nat → Nat) (names names' : List String) (token : Token) : Prop :=
  ∀ name, token.kind = .ident name → names'.idxOf? name = (names.idxOf? name).map f

/-- A step from the relabelled state leads to the relabelled outcome. -/
theorem step_relabel (ho : Monotone o) (state : State) {token : Token}
    (h : Renames f names names' token) :
    step names' maxDepth (state.relabel f o) (token.move o) =
      relabelled o (State.relabel f o) (step names maxDepth state token) := by
  obtain ⟨kind, span⟩ := token
  cases state with
  | operand context groups =>
    have hsign (minus : Bool) :
        addSign (context.relabel f o).signs (span.move o) minus =
          (addSign context.signs span minus).move o :=
      addSign_move o context.signs span minus
    cases kind with
    | operator op =>
      cases op with
      | add | sub =>
        simp only [step, State.relabel, Token.move, hsign]
        rfl
      | mul | div => rfl
    | int value => exact takeAtom_relabel f ho context groups (.literal span value)
    | ident name =>
      simp only [step, State.relabel, Token.move, h name rfl]
      cases names.idxOf? name with
      | none => rfl
      | some index => exact takeAtom_relabel f ho context groups (.param span index)
    | openParen =>
      simp only [step, State.relabel, Token.move, List.length_map]
      split <;> rfl
    | closeParen => rfl
  | operator sum groups operand =>
    have hunexpected (found : String) :
        Except.error
            (unexpectedAfterOperand (groups.map (Group.relabel f o)) found (span.move o)) =
          relabelled o (State.relabel f o)
            (Except.error (unexpectedAfterOperand groups found span)) :=
      congrArg Except.error (unexpectedAfterOperand_relabel f o groups found span)
    cases kind with
    | operator op =>
      simp only [step, State.relabel, Token.move, closeSum_relabel f ho]
      split <;> rfl
    | closeParen =>
      cases groups with
      | nil => rfl
      | cons group outer =>
        simp only [step, State.relabel, Token.move, List.map_cons, closeSum_relabel f ho]
        exact takeAtom_relabel f ho group.context outer (closeSum sum operand)
    | openParen => exact hunexpected _
    | int value => exact hunexpected _
    | ident name => exact hunexpected _

theorem foldlM_step_relabel (ho : Monotone o) {tokens : List Token}
    (h : ∀ t ∈ tokens, Renames f names names' t) (state : State) :
    (tokens.map (Token.move o)).foldlM (step names' maxDepth) (state.relabel f o) =
      relabelled o (State.relabel f o) (tokens.foldlM (step names maxDepth) state) := by
  induction tokens generalizing state with
  | nil => rfl
  | cons token tokens ih =>
    rw [List.forall_mem_cons] at h
    rw [List.map_cons, List.foldlM_cons, List.foldlM_cons, step_relabel ho state h.1]
    exact relabelled_bind (ih h.2)

theorem finish_relabel (ho : Monotone o) (state : State) (offset : Nat) :
    finish (state.relabel f o) (o offset) =
      relabelled o (Tree.relabel f o) (finish state offset) := by
  cases state with
  | operand context groups => rfl
  | operator sum groups operand =>
    cases groups with
    | nil => exact congrArg Except.ok (closeSum_relabel f ho sum operand)
    | cons group outer => rfl

/-- Reading the moved tokens against other positions gives the relabelled tree, or the
moved violation. -/
theorem ofScan_relabel (ho : Monotone o) {scan : Scan}
    (h : ∀ t ∈ scan.tokens, Renames f names names' t) :
    ofScan names' maxDepth (scan.move o) =
      relabelled o (Tree.relabel f o) (ofScan names maxDepth scan) := by
  have hstart : start = start.relabel f o := rfl
  unfold ofScan
  rw [hstart, Scan.move, foldlM_step_relabel ho h]
  refine relabelled_bind fun state => ?_
  exact relabelled_bind fun offset => finish_relabel ho state offset

/-- Reading against other positions gives the renamed tree, or the same violation. -/
theorem ofScan_rename {scan : Scan} (h : ∀ t ∈ scan.tokens, Renames f names names' t) :
    ofScan names' maxDepth scan = (ofScan names maxDepth scan).map (Tree.rename f) := by
  have hscan : ofScan names' maxDepth (scan.move id) =
      relabelled id (Tree.relabel f id) (ofScan names maxDepth scan) :=
    ofScan_relabel monotone_id h
  rw [Scan.move_id] at hscan
  rw [hscan, relabelled]
  cases ofScan names maxDepth scan with
  | error v => exact congrArg Except.error v.move_id
  | ok t => exact congrArg Except.ok (t.relabel_id f)

end Parse

/-! ## The code of a renamed tree -/

namespace Tree

/-- The kind of a node with other parameters. -/
def renameKind (f : Nat → Nat) : Arena.Kind → Arena.Kind
  | .param index => .param (f index)
  | kind => kind

theorem entries_rename (f : Nat → Nat) (t : Tree Place) :
    (t.rename f).entries = t.entries.map fun e => (e.1, renameKind f e.2) := by
  induction t with
  | literal => rfl
  | param => rfl
  | negate _ _ ih => simp [rename, entries, ih, renameKind]
  | binary _ _ _ _ ihl ihr => simp [rename, entries, ihl, ihr, renameKind]

/-- Renaming moves no instruction. -/
theorem offsetOf_rename (f : Nat → Nat) (t : Tree Place) (place : Place) :
    (t.rename f).offsetOf place = t.offsetOf place := by
  have hlength (kind : Arena.Kind) :
      (renameKind f kind).instruction.encode.length = kind.instruction.encode.length := by
    cases kind <;> rfl
  simp only [offsetOf, entries_rename, List.takeWhile_map, List.map_map,
    Function.comp_def, hlength]

end Tree

end Abacus
