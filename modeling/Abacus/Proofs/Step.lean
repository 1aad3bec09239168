import Abacus.Proofs.Reading

set_option autoImplicit false

/-!
# What one token does to the reader

`Parse.Transition` lists the ways in which a step of the reader can end, each with the
state, the token and the outcome, and `takeAtom` is taken apart in the same way.  What a
run keeps is shown from this list, without a look into the reader itself.

Main statements:

* `Parse.transition_step`: every step is one of the transitions.
* `Parse.takeAtom_eq_ok`, `Parse.takeAtom_eq_error`: what becomes of an atom.
* `Parse.complaint_of_step`, `Parse.complaint_of_finish`: what the reader fails at.
-/

namespace Abacus

namespace Parse

variable {names : List String} {maxDepth : Nat} {state : State} {v : Violation}

/-! ## Atoms -/

/-- Signs leave an operand as it is, or negate it. -/
theorem applySigns_eq_ok {signs : Option Signs} {t u : Tree Span}
    (h : applySigns signs t = .ok u) :
    u = t ∨ ∃ r, signs = some r ∧ (u = .negate ⟨r.start, t.tag.stop⟩ t ∨
      ∃ value, u = .literal ⟨r.start, t.tag.stop⟩ value) := by
  unfold applySigns at h
  split at h
  · dsimp only at h
    split at h
    · split at h
      · cases h
      · exact Or.inr ⟨_, rfl, Or.inr ⟨_, (Except.ok.inj h).symm⟩⟩
    · exact Or.inr ⟨_, rfl, Or.inl (Except.ok.inj h).symm⟩
  · exact Or.inl (Except.ok.inj h).symm

/-- Signs cannot be applied only if a literal cannot be negated. -/
theorem applySigns_eq_error {signs : Option Signs} {t : Tree Span}
    (h : applySigns signs t = .error v) :
    ∃ r, signs = some r ∧ v = ⟨.valueOutOfRange, ⟨r.start, t.tag.stop⟩⟩ := by
  unfold applySigns at h
  split at h
  · dsimp only at h
    split at h
    · split at h
      · exact ⟨_, rfl, (Except.error.inj h).symm⟩
      · cases h
    · cases h
  · cases h

/-- A product that can be closed is closed as a sum is. -/
theorem closeProduct_eq_ok {product : Option Pending} {right t : Tree Span}
    (h : closeProduct product right = .ok t) : t = closeSum product right := by
  unfold closeProduct at h
  split at h
  · exact (Except.ok.inj h).symm
  · split at h
    · cases h
    · exact (Except.ok.inj h).symm

/-- A product cannot be closed only by a divisor that is zero. -/
theorem closeProduct_eq_error {product : Option Pending} {right : Tree Span}
    (h : closeProduct product right = .error v) : v = ⟨.divisionByZero, right.tag⟩ := by
  unfold closeProduct at h
  split at h
  · cases h
  · split at h
    · exact (Except.error.inj h).symm
    · cases h

/-- An atom that is taken gets its signs, and then completes the product in front of
it. -/
theorem takeAtom_eq_ok {context : Context} {groups : List Group} {atom : Tree Span}
    (h : takeAtom context groups atom = .ok state) :
    ∃ signed operand, applySigns context.signs atom = .ok signed ∧
      closeProduct context.product signed = .ok operand ∧
      state = .operator context.sum groups operand := by
  obtain ⟨signed, hsigns, h⟩ := bind_eq_ok_iff.mp h
  obtain ⟨operand, hproduct, h⟩ := bind_eq_ok_iff.mp h
  exact ⟨signed, operand, hsigns, hproduct, (Except.ok.inj h).symm⟩

/-- Taking an atom fails with its signs, or with the divisor that it makes. -/
theorem takeAtom_eq_error {context : Context} {groups : List Group} {atom : Tree Span}
    (h : takeAtom context groups atom = .error v) :
    (∃ r, context.signs = some r ∧ v = ⟨.valueOutOfRange, ⟨r.start, atom.tag.stop⟩⟩) ∨
      ∃ signed, applySigns context.signs atom = .ok signed ∧
        v = ⟨.divisionByZero, signed.tag⟩ := by
  rcases bind_eq_error_iff.mp h with hsigns | ⟨signed, hsigns, h⟩
  · exact Or.inl (applySigns_eq_error hsigns)
  · rcases bind_eq_error_iff.mp h with hproduct | ⟨operand, -, h⟩
    · exact Or.inr ⟨signed, hsigns, closeProduct_eq_error hproduct⟩
    · cases h

/-! ## Steps -/

/-- What the reader does with a token in a state. -/
inductive Transition (names : List String) (maxDepth : Nat) :
    State → Token → Except Violation State → Prop
  /-- A sign joins those in front of the operand. -/
  | sign (context : Context) (groups : List Group) (span : Span) (op : Operator)
      (additive : op.isAdditive = true) :
    Transition names maxDepth (.operand context groups) ⟨.operator op, span⟩
      (.ok (.operand
        { context with signs := some (addSign context.signs span (decide (op = .sub))) }
        groups))
  | literal (context : Context) (groups : List Group) (span : Span) (value : Int64) :
    Transition names maxDepth (.operand context groups) ⟨.int value, span⟩
      (takeAtom context groups (.literal span value))
  | param (context : Context) (groups : List Group) (span : Span) (name : String)
    (index : Nat)
      (h : names.idxOf? name = some index) :
    Transition names maxDepth (.operand context groups) ⟨.ident name, span⟩
      (takeAtom context groups (.param span index))
  | opening (context : Context) (groups : List Group) (span : Span)
      (h : groups.length < maxDepth) :
    Transition names maxDepth (.operand context groups) ⟨.openParen, span⟩
      (.ok (.operand .empty (⟨context, span⟩ :: groups)))
  /-- An additive operator completes the sum in front of it. -/
  | additive (sum : Option Pending) (groups : List Group) (operand : Tree Span)
    (span : Span)
      (op : Operator) (h : op.isAdditive = true) :
    Transition names maxDepth (.operator sum groups operand) ⟨.operator op, span⟩
      (.ok (.operand ⟨some ⟨closeSum sum operand, op⟩, none, none⟩ groups))
  | multiplicative (sum : Option Pending) (groups : List Group) (operand : Tree Span)
    (span : Span)
      (op : Operator) (h : op.isAdditive = false) :
    Transition names maxDepth (.operator sum groups operand) ⟨.operator op, span⟩
      (.ok (.operand ⟨sum, some ⟨operand, op⟩, none⟩ groups))
  /-- The sum in a group is an atom outside of it. -/
  | closing (sum : Option Pending) (group : Group) (outer : List Group)
    (operand : Tree Span)
      (span : Span) :
    Transition names maxDepth (.operator sum (group :: outer) operand) ⟨.closeParen, span⟩
      (takeAtom group.context outer (closeSum sum operand))
  | undefined (context : Context) (groups : List Group) (span : Span) (name : String)
      (h : names.idxOf? name = none) :
    Transition names maxDepth (.operand context groups) ⟨.ident name, span⟩
      (.error ⟨.undefinedVariable name, span⟩)
  | tooDeep (context : Context) (groups : List Group) (span : Span)
      (h : maxDepth ≤ groups.length) :
    Transition names maxDepth (.operand context groups) ⟨.openParen, span⟩
      (.error ⟨.maxDepthExceeded maxDepth, span⟩)
  | noOperand (context : Context) (groups : List Group) (token : Token) :
    Transition names maxDepth (.operand context groups) token
      (.error ⟨.illegalToken "expression" token.kind.describe, token.span⟩)
  | noOperator (sum : Option Pending) (groups : List Group) (operand : Tree Span)
    (token : Token) :
    Transition names maxDepth (.operator sum groups operand) token
      (.error (unexpectedAfterOperand groups token.kind.describe token.span))

theorem transition_step (names : List String) (maxDepth : Nat) (state : State)
    (token : Token) :
    Transition names maxDepth state token (step names maxDepth state token) := by
  obtain ⟨kind, span⟩ := token
  cases state with
  | operand context groups =>
    cases kind with
    | operator op =>
      cases op with
      | add => exact .sign context groups span .add rfl
      | sub => exact .sign context groups span .sub rfl
      | mul | div => exact .noOperand _ _ _
    | int value => exact .literal _ _ _ _
    | ident name =>
      simp only [step]
      split
      · exact .param _ _ _ _ _ ‹_›
      · exact .undefined _ _ _ _ ‹_›
    | openParen =>
      simp only [step]
      split
      · exact .opening _ _ _ ‹_›
      · exact .tooDeep _ _ _ (Nat.le_of_not_lt ‹_›)
    | closeParen => exact .noOperand _ _ _
  | operator sum groups t =>
    cases kind with
    | operator op =>
      simp only [step]
      split
      · exact .additive _ _ _ _ _ ‹_›
      · exact .multiplicative _ _ _ _ _ (Bool.eq_false_iff.mpr ‹_›)
    | closeParen =>
      cases groups with
      | nil => exact .noOperator _ _ _ _
      | cons group outer => exact .closing _ _ _ _ _
    | openParen | int | ident => exact .noOperator _ _ _ _

/-! ## Causes -/

/-- The causes that the reader finds in an expression, whatever its limit is. -/
inductive Complaint : ParseError.Cause → Prop
  | illegalToken (expected found : String) : Complaint (.illegalToken expected found)
  | expectedCloseParen (opening : Span) (found : String) :
    Complaint (.expectedCloseParen opening found)
  | undefinedVariable (name : String) : Complaint (.undefinedVariable name)
  | valueOutOfRange : Complaint .valueOutOfRange
  | divisionByZero : Complaint .divisionByZero

theorem complaint_unexpectedAfterOperand (groups : List Group) (found : String)
    (span : Span) :
    Complaint (unexpectedAfterOperand groups found span).cause := by
  cases groups with
  | nil => exact .illegalToken _ _
  | cons group outer => exact .expectedCloseParen _ _

theorem complaint_of_takeAtom {context : Context} {groups : List Group} {atom : Tree Span}
    (h : takeAtom context groups atom = .error v) : Complaint v.cause := by
  rcases takeAtom_eq_error h with ⟨r, -, rfl⟩ | ⟨signed, -, rfl⟩
  · exact .valueOutOfRange
  · exact .divisionByZero

/-- A step fails at a complaint, or at an opening parenthesis for which there is no
room. -/
theorem complaint_of_step {token : Token}
    (h : step names maxDepth state token = .error v) :
    Complaint v.cause ∨ v = ⟨.maxDepthExceeded maxDepth, token.span⟩ ∧
      token.kind = .openParen ∧
      ∃ context groups, state = .operand context groups ∧ maxDepth ≤ groups.length := by
  have htransition := transition_step names maxDepth state token
  generalize step names maxDepth state token = result at h htransition
  cases htransition with
  | sign | opening | additive | multiplicative => cases h
  | literal | param | closing => exact Or.inl (complaint_of_takeAtom h)
  | undefined =>
    obtain rfl := Except.error.inj h
    exact Or.inl (.undefinedVariable _)
  | noOperand =>
    obtain rfl := Except.error.inj h
    exact Or.inl (.illegalToken _ _)
  | noOperator =>
    obtain rfl := Except.error.inj h
    exact Or.inl (complaint_unexpectedAfterOperand _ _ _)
  | tooDeep context groups span hle =>
    obtain rfl := Except.error.inj h
    exact Or.inr ⟨rfl, rfl, context, groups, rfl, hle⟩

theorem complaint_of_finish {offset : Nat} (h : finish state offset = .error v) :
    Complaint v.cause := by
  cases state with
  | operand context groups =>
    obtain rfl := Except.error.inj h
    exact .illegalToken _ _
  | operator sum groups operand =>
    cases groups with
    | nil => cases h
    | cons group outer =>
      obtain rfl := Except.error.inj h
      exact complaint_unexpectedAfterOperand _ _ _

end Parse

end Abacus
