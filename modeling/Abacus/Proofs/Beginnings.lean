import Abacus.Proofs.Ranges

set_option autoImplicit false

/-!
# Where violations begin

The spans that the reader makes begin where the spans of tokens do: a span that encloses
others begins with the first of them.  So a violation that is not about the end of the
source begins with a character of a lexeme, which is neither white space nor the beginning
of a comment.

Main statements:

* `Parse.begun_step`, `Parse.begins_of_foldlM`: what a step keeps, and so a run.
* `Arena.span_of_parse`: what stands where the span of an error begins.
-/

namespace Abacus

namespace Parse

/-- All of these pieces begin at offsets with a property. -/
def Begins (P : Nat → Prop) (pieces : List Piece) : Prop :=
  ∀ p ∈ pieces, P p.span.start

/-- All that is left of a step begins at offsets with a property, be it a state or a
violation. -/
def Begun (P : Nat → Prop) : Except Violation State → Prop
  | .ok state => Begins P state.pieces
  | .error v => P v.span.start

variable {P : Nat → Prop} {names : List String} {maxDepth : Nat} {state state' : State}
  {token : Token} {v : Violation}

theorem begins_append {front back : List Piece} :
    Begins P (front ++ back) ↔ Begins P front ∧ Begins P back :=
  List.forall_mem_append

theorem begins_singleton {p : Piece} : Begins P [p] ↔ P p.span.start :=
  List.forall_mem_singleton

theorem begins_groupPieces_cons {group : Group} {outer : List Group} :
    Begins P (groupPieces (group :: outer)) ↔
      Begins P (groupPieces outer) ∧ Begins P group.context.pieces ∧
        P group.opening.start := by
  rw [groupPieces, begins_append, begins_append, begins_singleton]
  rfl

theorem begins_context {context : Context} :
    Begins P context.pieces ↔ Begins P (pendingPieces context.sum) ∧
      Begins P (pendingPieces context.product) ∧ Begins P (signPieces context.signs) := by
  rw [Context.pieces, begins_append, begins_append]

theorem begins_operand {context : Context} {groups : List Group} :
    Begins P (State.operand context groups).pieces ↔
      Begins P (groupPieces groups) ∧ Begins P context.pieces :=
  begins_append

theorem begins_operator {sum : Option Pending} {groups : List Group} {t : Tree Span} :
    Begins P (State.operator sum groups t).pieces ↔
      Begins P (groupPieces groups) ∧ Begins P (pendingPieces sum) ∧ P t.tag.start := by
  rw [State.pieces, begins_append, begins_append, begins_singleton]
  rfl

/-! ## Steps -/

theorem begins_of_applySigns {signs : Option Signs} {atom t : Tree Span}
    (hsigns : Begins P (signPieces signs)) (hatom : P atom.tag.start)
    (h : applySigns signs atom = .ok t) : P t.tag.start := by
  rcases applySigns_eq_ok h with rfl | ⟨run, rfl, rfl | ⟨value, rfl⟩⟩
  · exact hatom
  · exact begins_singleton.mp hsigns
  · exact begins_singleton.mp hsigns

theorem begins_of_closeSum {pending : Option Pending} {t : Tree Span}
    (hpending : Begins P (pendingPieces pending)) (ht : P t.tag.start) :
    P (closeSum pending t).tag.start := by
  cases pending with
  | none => exact ht
  | some pending =>
    have hleft : P pending.left.tag.start := begins_singleton.mp hpending
    rw [closeSum, Tree.tag_join, Span.combine]
    rcases Nat.le_total pending.left.tag.start t.tag.start with hle | hle
    · rwa [Nat.min_eq_left hle]
    · rwa [Nat.min_eq_right hle]

theorem begun_takeAtom {context : Context} {groups : List Group} {atom : Tree Span}
    (hgroups : Begins P (groupPieces groups)) (hcontext : Begins P context.pieces)
    (hatom : P atom.tag.start) : Begun P (takeAtom context groups atom) := by
  obtain ⟨hsum, hproduct, hsigns⟩ := begins_context.mp hcontext
  cases htake : takeAtom context groups atom with
  | ok state =>
    obtain ⟨signed, operand, hsigned, hoperand, rfl⟩ := takeAtom_eq_ok htake
    obtain rfl := closeProduct_eq_ok hoperand
    exact begins_operator.mpr ⟨hgroups, hsum,
      begins_of_closeSum hproduct (begins_of_applySigns hsigns hatom hsigned)⟩
  | error v =>
    rcases takeAtom_eq_error htake with ⟨run, hrun, rfl⟩ | ⟨signed, hsigned, rfl⟩
    · rw [hrun] at hsigns
      exact begins_singleton.mp hsigns
    · exact begins_of_applySigns hsigns hatom hsigned

/-- What cannot follow an operand is about the group that is not closed, if there is
one. -/
theorem begins_of_unexpected {groups : List Group} {found : String} {span : Span}
    (hgroups : Begins P (groupPieces groups)) (hspan : groups = [] → P span.start) :
    P (unexpectedAfterOperand groups found span).span.start := by
  cases groups with
  | nil => exact hspan rfl
  | cons group outer => exact (begins_groupPieces_cons.mp hgroups).2.2

/-- What a step leaves begins with the token, or where something that the reader held
did. -/
theorem begun_step (h : Begins P state.pieces) (htoken : P token.span.start) :
    Begun P (step names maxDepth state token) := by
  have htransition := transition_step names maxDepth state token
  generalize step names maxDepth state token = result at htransition
  cases htransition with
  | sign context groups span op =>
    obtain ⟨hgroups, hcontext⟩ := begins_operand.mp h
    obtain ⟨hsum, hproduct, hsigns⟩ := begins_context.mp hcontext
    have hsign : P (addSign context.signs span (decide (op = .sub))).start := by
      cases hrun : context.signs with
      | none => exact htoken
      | some run =>
        rw [hrun] at hsigns
        exact begins_singleton.mp hsigns
    exact begins_operand.mpr
      ⟨hgroups, begins_context.mpr ⟨hsum, hproduct, begins_singleton.mpr hsign⟩⟩
  | literal | param =>
    obtain ⟨hgroups, hcontext⟩ := begins_operand.mp h
    exact begun_takeAtom hgroups hcontext htoken
  | opening context groups span =>
    obtain ⟨hgroups, hcontext⟩ := begins_operand.mp h
    exact begins_operand.mpr
      ⟨begins_groupPieces_cons.mpr ⟨hgroups, hcontext, htoken⟩, fun _ hp => by cases hp⟩
  | additive sum groups t =>
    obtain ⟨hgroups, hsum, ht⟩ := begins_operator.mp h
    exact begins_operand.mpr ⟨hgroups, begins_singleton.mpr (begins_of_closeSum hsum ht)⟩
  | multiplicative sum groups t =>
    obtain ⟨hgroups, hsum, ht⟩ := begins_operator.mp h
    exact begins_operand.mpr
      ⟨hgroups,
        begins_context.mpr ⟨hsum, begins_singleton.mpr ht, fun _ hp => by cases hp⟩⟩
  | closing sum group outer t =>
    obtain ⟨hgroups, hsum, ht⟩ := begins_operator.mp h
    obtain ⟨houter, hcontext, -⟩ := begins_groupPieces_cons.mp hgroups
    exact begun_takeAtom houter hcontext (begins_of_closeSum hsum ht)
  | undefined | tooDeep | noOperand => exact htoken
  | noOperator sum groups t =>
    exact begins_of_unexpected (begins_operator.mp h).1 fun _ => htoken

/-- All that is held begins with tokens, if the reader starts with nothing. -/
theorem begins_of_foldlM {tokens : List Token} (h : Begins P state.pieces)
    (htokens : ∀ t ∈ tokens, P t.span.start)
    (hrun : tokens.foldlM (step names maxDepth) state = .ok state') :
    Begins P state'.pieces := by
  induction tokens generalizing state with
  | nil =>
    obtain rfl := Except.ok.inj hrun
    exact h
  | cons token tokens ih =>
    rw [List.forall_mem_cons] at htokens
    obtain ⟨next, hstep, hrun⟩ := bind_eq_ok_iff.mp hrun
    have hnext : Begun P (step names maxDepth state token) := begun_step h htokens.1
    rw [hstep] at hnext
    exact ih hnext htokens.2 hrun

/-- A violation begins with a token, or with the violation that the scan ends with, unless
it is empty and stands at the end of the source. -/
theorem start_of_ofScan {scan : Scan} (htokens : ∀ t ∈ scan.tokens, P t.span.start)
    (hending : ∀ w, scan.ending = .error w → P w.span.start)
    (h : ofScan names maxDepth scan = .error v) :
    P v.span.start ∨ v.span.start = v.span.stop := by
  have hstart : Begins P start.pieces := fun _ hp => by cases hp
  rcases bind_eq_error_iff.mp h with hfail | ⟨state, hrun, h⟩
  · obtain ⟨first, token, more, middle, hcut, hfirst, hstep⟩ := foldlM_eq_error hfail
    rw [hcut, List.forall_mem_append, List.forall_mem_cons] at htokens
    have hmiddle := begins_of_foldlM hstart htokens.1 hfirst
    have hv : Begun P (step names maxDepth middle token) := begun_step hmiddle htokens.2.1
    rw [hstep] at hv
    exact Or.inl hv
  · have hstate := begins_of_foldlM hstart htokens hrun
    rcases bind_eq_error_iff.mp h with hviolation | ⟨stop, -, h⟩
    · exact Or.inl (hending v hviolation)
    · cases state with
      | operand context groups =>
        obtain rfl := Except.error.inj h
        exact Or.inr rfl
      | operator sum groups t =>
        cases groups with
        | nil => cases h
        | cons group outer =>
          obtain rfl := Except.error.inj h
          exact Or.inl (begins_of_unexpected (begins_operator.mp hstate).1 nofun)

end Parse

/-! ## Lexemes -/

/-- A character that begins no layout stands at an offset of the source. -/
def LexemeAt (source : List Char) (offset : Nat) : Prop :=
  ∃ before c rest, source = before ++ c :: rest ∧ offset = Text.byteLength before ∧
    Text.isAsciiBlank c = false

theorem Span.Cuts.lexemeAt {span : Span} {source before run rest : List Char}
    (h : span.Cuts source before run rest)
    (hrun : ∃ c cs, run = c :: cs ∧ Text.isAsciiBlank c = false) :
    LexemeAt source span.start := by
  obtain ⟨rfl, hstart, -⟩ := h
  obtain ⟨c, cs, rfl, hc⟩ := hrun
  exact ⟨before, c, cs ++ rest, by rw [List.append_assoc, List.cons_append], hstart, hc⟩

theorem isAsciiBlank_of_isDigit {c : Char} (h : c.isDigit = true) :
    Text.isAsciiBlank c = false :=
  (Scan.isAsciiBlank_eq_false (Nat.le_trans (by decide) (Scan.code_of_isDigit h).1)).1

theorem Token.Kind.Matches.exists_char {before run rest : List Char} {kind : Token.Kind}
    (h : kind.Matches before run rest) :
    ∃ c cs, run = c :: cs ∧ Text.isAsciiBlank c = false := by
  cases kind with
  | operator op =>
    obtain rfl := h
    exact ⟨_, _, rfl, by cases op <;> rfl⟩
  | openParen | closeParen =>
    obtain rfl := h
    exact ⟨_, _, rfl, rfl⟩
  | int value =>
    obtain ⟨c, cs, rfl, hc, -⟩ := h.1.inside
    exact ⟨c, cs, rfl, isAsciiBlank_of_isDigit hc⟩
  | ident name =>
    obtain ⟨c, cs, rfl, hc, -⟩ := h.1.inside
    exact ⟨c, cs, rfl, (Scan.isAsciiBlank_eq_false
      (Nat.le_trans (by decide) (Scan.code_of_isIdentStart hc).1)).1⟩

theorem ParseError.Cause.Rejects.exists_char {before run rest : List Char}
    {cause : ParseError.Cause} (h : cause.Rejects before run rest) :
    ∃ c cs, run = c :: cs ∧ Text.isAsciiBlank c = false := by
  cases cause with
  | valueOutOfRange =>
    obtain ⟨c, cs, rfl, hc, -⟩ := h.1.inside
    exact ⟨c, cs, rfl, isAsciiBlank_of_isDigit hc⟩
  | illegalCharacter c => exact ⟨c, [], h.1, h.2.2.2.2.1⟩
  | _ => exact h.elim

/-- The span of an error is a proper one that begins with a lexeme, or the empty one at
the end of the source, unless the error is about the name of a parameter. -/
theorem Arena.span_of_parse {source : String} {names : List String} {maxDepth : Nat}
    {e : ParseError} (h : Arena.parse source names maxDepth = .error e)
    (hargument : e.cause.argument = none) :
    e.source = source ∧
      (e.span.Proper source.toList ∧ LexemeAt source.toList e.span.start ∨
      e.span = .point (Text.byteLength source.toList)) := by
  rcases Tree.parse_eq_error_iff.mp (parse_eq_error_iff.mp h) with
    ⟨cause, hfault, rfl⟩ | ⟨-, v, hv, rfl⟩
  · exact absurd hargument (Scope.argument_ne_none_of_fault? hfault)
  · refine ⟨rfl, ?_⟩
    have hbegins : LexemeAt source.toList v.span.start ∨ v.span.start = v.span.stop := by
      refine Parse.start_of_ofScan (fun t ht => ?_) (fun w hw => ?_) hv
      · obtain ⟨before, run, rest, hcuts, hmatches⟩ :=
          (Scan.covers_ofText source.toList).tokens t ht
        exact hcuts.lexemeAt hmatches.exists_char
      · obtain ⟨before, run, rest, hcuts, hrejects⟩ :=
          (Scan.covers_ofText source.toList).violation w hw
        exact hcuts.lexemeAt hrejects.exists_char
    rcases Parse.proper_of_ofScan hv with hproper | ⟨-, rfl⟩
    · exact Or.inl ⟨hproper, hbegins.resolve_right (Nat.ne_of_lt hproper.lt)⟩
    · exact Or.inr rfl

end Abacus
