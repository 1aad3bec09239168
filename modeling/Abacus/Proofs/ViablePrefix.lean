import Abacus.Proofs.Extension

set_option autoImplicit false

/-!
# Errors are found at the first place possible

Where an error is about a token, or about a character that begins none, the part of the
source in front of it goes on to a source that is accepted.  So the source could not have
been rejected by anyone who had seen less of it.

The reader is suspended in front of every token that it has taken or failed at.  What has
to be shown is that an error points to such a token: to the one at hand, or to the first
of the signs in front of a literal that cannot be negated, which was taken before.

Main statement: `Arena.exists_extension_of_error`.
-/

namespace Abacus

/-! ## What an error points to -/

/-- The causes that are about a token, or about a character that begins none. -/
def ParseError.Cause.concernsToken : Cause → Bool
  | illegalCharacter _ => true
  | illegalToken _ _ => true
  | expectedCloseParen _ _ => true
  | undefinedVariable _ => true
  | valueOutOfRange => true
  | maxDepthExceeded _ => true
  | _ => false

/-- The violation is about what is described as `found` and covers the span. -/
def Violation.IsAt (v : Violation) (found : String) (span : Span) : Prop :=
  match v.cause with
  | .expectedCloseParen _ found' => found' = found ∧ v.span.stop = span.stop
  | _ => v.span.start = span.start

/-- The offset at which the token or the character stands that an error is about.  The
span of a missing parenthesis ends with the token found in its place, which may be the end
of the source; any other span starts at the offset. -/
def ParseError.PointsTo (e : ParseError) (offset : Nat) : Prop :=
  let scan := Scan.ofText e.source.toList
  match e.cause with
  | .expectedCloseParen _ found =>
    (∃ t ∈ scan.tokens, t.kind.describe = found ∧ t.span = ⟨offset, e.span.stop⟩) ∨
      found = Token.describeEnd ∧ scan.ending = .ok offset ∧ e.span.stop = offset
  | _ => e.span.start = offset

theorem Violation.IsAt.pointsTo_token {v : Violation} {source : String} {t : Token}
    (h : v.IsAt t.kind.describe t.span)
    (ht : t ∈ (Scan.ofText source.toList).tokens) :
    (v.inSource source).PointsTo t.span.start := by
  obtain ⟨cause, span⟩ := v
  cases cause with
  | expectedCloseParen opening found =>
    obtain ⟨rfl, hstop⟩ := h
    exact Or.inl ⟨t, ht, rfl, by rw [Violation.inSource, hstop]⟩
  | _ => exact h

theorem Violation.IsAt.pointsTo_end {v : Violation} {source : String} {stop : Nat}
    (h : v.IsAt Token.describeEnd (.point stop))
    (hending : (Scan.ofText source.toList).ending = .ok stop) :
    (v.inSource source).PointsTo stop := by
  obtain ⟨cause, span⟩ := v
  cases cause with
  | expectedCloseParen opening found =>
    obtain ⟨rfl, hstop⟩ := h
    exact Or.inr ⟨rfl, hending, hstop⟩
  | _ => exact h

/-- All but missing parentheses are pointed to by the start of the span. -/
theorem Violation.pointsTo_start {v : Violation} (source : String)
    (h : v.cause = .valueOutOfRange ∨ ∃ c, v.cause = .illegalCharacter c) :
    (v.inSource source).PointsTo v.span.start := by
  obtain ⟨cause, span⟩ := v
  rcases h with rfl | ⟨c, rfl⟩ <;> exact rfl

namespace Parse

open Phrase

variable {names : List String} {maxDepth : Nat} {state state' : State} {token : Token}
  {v : Violation}

/-! ## Signs that wait for their operand -/

/-- The runs of signs of the groups that are open. -/
def groupRuns (groups : List Group) : List Signs :=
  groups.filterMap (·.context.signs)

/-- The runs of signs that still wait for their operand. -/
def State.runs : State → List Signs
  | .operand context groups => context.signs.toList ++ groupRuns groups
  | .operator _ groups _ => groupRuns groups

theorem groupRuns_cons (group : Group) (outer : List Group) :
    groupRuns (group :: outer) = group.context.signs.toList ++ groupRuns outer := by
  rw [groupRuns, List.filterMap_cons]
  cases group.context.signs <;> rfl

/-- An atom takes the signs in front of it, so that no run but those of the groups is
left. -/
theorem runs_of_takeAtom {context : Context} {groups : List Group} {atom : Tree Span}
    (h : takeAtom context groups atom = .ok state) : state.runs = groupRuns groups := by
  obtain ⟨signed, operand, -, -, rfl⟩ := takeAtom_eq_ok h
  rfl

/-- A longer run of signs starts where the run did, and a new one where its first sign
does. -/
theorem start_addSign (signs : Option Signs) (span : Span) (minus : Bool) :
    (addSign signs span minus).start = span.start ∨
      ∃ r ∈ signs.toList, (addSign signs span minus).start = r.start := by
  cases signs with
  | none => exact Or.inl rfl
  | some r => exact Or.inr ⟨r, List.mem_singleton_self r, rfl⟩

/-- A step leaves the runs of signs as they are, or starts a new one at its token. -/
theorem start_of_step (h : step names maxDepth state token = .ok state') :
    ∀ r ∈ state'.runs, r.start = token.span.start ∨
      ∃ r' ∈ state.runs, r.start = r'.start := by
  have hkept (hruns : state'.runs ⊆ state.runs) :
      ∀ r ∈ state'.runs, r.start = token.span.start ∨
        ∃ r' ∈ state.runs, r.start = r'.start :=
    fun r hr => Or.inr ⟨r, hruns hr, rfl⟩
  have htransition := transition_step names maxDepth state token
  generalize step names maxDepth state token = result at h htransition
  cases htransition with
  | sign context groups span op =>
    obtain rfl := Except.ok.inj h
    intro r hr
    rcases List.mem_cons.mp hr with rfl | hr
    · refine (start_addSign context.signs span _).imp id ?_
      rintro ⟨r', hr', hstart⟩
      exact ⟨r', List.mem_append_left _ hr', hstart⟩
    · exact Or.inr ⟨r, List.mem_append_right _ hr, rfl⟩
  | literal | param =>
    refine hkept ?_
    rw [runs_of_takeAtom h]
    exact List.subset_append_right _ _
  | opening context groups span =>
    obtain rfl := Except.ok.inj h
    refine hkept ?_
    show groupRuns (⟨context, span⟩ :: groups) ⊆ _
    rw [groupRuns_cons]
    exact List.Subset.refl _
  | additive | multiplicative =>
    obtain rfl := Except.ok.inj h
    exact hkept (List.Subset.refl _)
  | closing sum group outer t =>
    refine hkept ?_
    rw [runs_of_takeAtom h, State.runs, groupRuns_cons]
    exact List.subset_append_right _ _
  | undefined | tooDeep | noOperand | noOperator => cases h

/-- Every run of signs starts at a lexeme that was taken, or did so before. -/
theorem start_of_advance {lexemes : List Lexeme}
    (h : advance names maxDepth state lexemes = .ok state') :
    ∀ r ∈ state'.runs, (∃ l ∈ lexemes, l.span.start = r.start) ∨
      ∃ r' ∈ state.runs, r.start = r'.start := by
  induction lexemes generalizing state with
  | nil =>
    obtain rfl := Except.ok.inj h
    exact fun r hr => Or.inr ⟨r, hr, rfl⟩
  | cons l lexemes ih =>
    rw [advance, List.map_cons, List.foldlM_cons] at h
    obtain ⟨next, hstep, h⟩ := bind_eq_ok_iff.mp h
    intro r hr
    rcases ih h r hr with ⟨m, hm, hstart⟩ | ⟨r', hr', hstart⟩
    · exact Or.inl ⟨m, List.mem_cons_of_mem l hm, hstart⟩
    · rcases start_of_step hstep r' hr' with hl | ⟨r'', hr'', hstart'⟩
      · exact Or.inl ⟨l, List.mem_cons_self, (hstart.trans hl).symm⟩
      · exact Or.inr ⟨r'', hr'', hstart.trans hstart'⟩

/-! ## Where the reader fails -/

theorem isAt_unexpectedAfterOperand (groups : List Group) (found : String) (span : Span) :
    (unexpectedAfterOperand groups found span).IsAt found span := by
  cases groups with
  | nil => exact rfl
  | cons group outer => exact ⟨rfl, rfl⟩

/-- The reader fails at the token at hand, or at the start of a run of signs, or at a
divisor. -/
theorem step_eq_error (h : step names maxDepth state token = .error v) :
    v.IsAt token.kind.describe token.span ∨ v.cause = .divisionByZero ∨
      v.cause = .valueOutOfRange ∧ ∃ r ∈ state.runs, v.span.start = r.start := by
  have hatom {context : Context} {groups : List Group} {t : Tree Span}
      (h : takeAtom context groups t = .error v)
      (hruns : context.signs.toList ⊆ state.runs) :
      v.cause = .divisionByZero ∨
        v.cause = .valueOutOfRange ∧ ∃ r ∈ state.runs, v.span.start = r.start := by
    rcases takeAtom_eq_error h with ⟨r, hr, rfl⟩ | ⟨_, -, rfl⟩
    · exact Or.inr ⟨rfl, r, hruns (Option.mem_toList.mpr hr), rfl⟩
    · exact Or.inl rfl
  have htransition := transition_step names maxDepth state token
  generalize step names maxDepth state token = result at h htransition
  cases htransition with
  | sign | opening | additive | multiplicative => cases h
  | literal | param => exact Or.inr (hatom h (List.subset_append_left _ _))
  | closing sum group outer t =>
    refine Or.inr (hatom h ?_)
    rw [State.runs, groupRuns_cons]
    exact List.subset_append_left _ _
  | undefined | tooDeep | noOperand =>
    obtain rfl := Except.error.inj h
    exact Or.inl rfl
  | noOperator =>
    obtain rfl := Except.error.inj h
    exact Or.inl (isAt_unexpectedAfterOperand _ _ _)

/-- At the end of the input the reader fails there. -/
theorem finish_eq_error {stop : Nat} (h : finish state stop = .error v) :
    v.IsAt Token.describeEnd (.point stop) := by
  cases state with
  | operand context groups =>
    obtain rfl := Except.error.inj h
    exact rfl
  | operator sum groups operand =>
    cases groups with
    | nil => cases h
    | cons group outer =>
      obtain rfl := Except.error.inj h
      exact isAt_unexpectedAfterOperand _ _ _

/-! ## The part in front of an error -/

/-- If the reader fails at a lexeme, it is suspended in front of what the error points
to. -/
theorem exists_suspends_of_step {source : String} {text : List Char} {stop : Nat}
    {first more : List Lexeme} {l : Lexeme}
    (htokens : (Scan.ofText source.toList).tokens = (first ++ l :: more).map Lexeme.token)
    (hspelled : Spelled 0 text (first ++ l :: more) stop)
    (hfits : ∀ m ∈ first ++ l :: more, m.Fits)
    (hrun : advance names maxDepth start first = .ok state)
    (hstep : step names maxDepth state l.token = .error v)
    (hcause : v.cause.concernsToken = true) :
    ∃ before rest state, text = before ++ rest ∧
      (v.inSource source).PointsTo (Text.byteLength before) ∧
      Suspends names maxDepth before state := by
  have hfirst : ∀ m ∈ first, m.Fits := fun m hm => hfits m (List.mem_append_left _ hm)
  rcases step_eq_error hstep with hat | hdivision | ⟨hrange, r, hr, hstart⟩
  · obtain ⟨before, rest, htext, hbefore, hsuspends⟩ := Suspends.cut hspelled hfirst hrun
    have hmem : l.token ∈ (Scan.ofText source.toList).tokens := by
      rw [htokens]
      exact List.mem_map_of_mem (List.mem_append_right _ List.mem_cons_self)
    exact ⟨before, rest, state, htext, hbefore ▸ hat.pointsTo_token hmem, hsuspends⟩
  · rw [hdivision] at hcause
    cases hcause
  · -- The run of signs began at a lexeme that the reader took before,
    -- so the text is cut there.
    obtain ⟨m, hm, hmstart⟩ | ⟨r', hr', -⟩ := start_of_advance hrun r hr
    · obtain ⟨outer, inner, rfl⟩ := List.append_of_mem hm
      obtain ⟨middle, houter, -⟩ := advance_append_eq_ok_iff.mp hrun
      rw [List.append_assoc, List.cons_append] at hspelled
      obtain ⟨before, rest, htext, hbefore, hsuspends⟩ := Suspends.cut hspelled
        (fun n hn => hfirst n (List.mem_append_left _ hn)) houter
      have hpoints := Violation.pointsTo_start source (Or.inl hrange)
      rw [hstart, ← hmstart, hbefore] at hpoints
      exact ⟨before, rest, middle, htext, hpoints, hsuspends⟩
    · cases hr'

/-- The reader is suspended in front of what an error points to. -/
theorem exists_suspends_of_error {source : String}
    (h : ofScan names maxDepth (Scan.ofText source.toList) = .error v)
    (hcause : v.cause.concernsToken = true) :
    ∃ before rest state, source.toList = before ++ rest ∧
      (v.inSource source).PointsTo (Text.byteLength before) ∧
      Suspends names maxDepth before state := by
  obtain ⟨text, remaining, lexemes, htext, hspelled, hfits, htokens, hending⟩ :=
    Scan.exists_spelled 0 source.toList
  rw [Nat.zero_add] at hspelled hending
  have hrun : (advance names maxDepth start lexemes >>= fun state =>
      (Scan.ofText source.toList).ending >>= fun stop => finish state stop) =
      .error v := by
    rw [advance, ← htokens]
    exact h
  rcases bind_eq_error_iff.mp hrun with hfail | ⟨state, hstate, hend⟩
  · obtain ⟨first, l, more, state, rfl, hfirst, hstep⟩ := advance_eq_error hfail
    obtain ⟨before, rest, state', rfl, hpoints, hsuspends⟩ :=
      exists_suspends_of_step htokens hspelled hfits hfirst hstep hcause
    exact ⟨before, rest ++ remaining, state', by rw [htext, List.append_assoc], hpoints,
      hsuspends⟩
  · refine ⟨text, remaining, state, htext, ?_, lexemes, _, hspelled, hfits, hstate⟩
    rcases bind_eq_error_iff.mp hend with hviolation | ⟨stop, hstop, hfinish⟩
    · rcases hending with ⟨-, hok⟩ | ⟨w, herror, hstart, hcauses⟩
      · cases hok.symm.trans hviolation
      · obtain rfl := Except.error.inj (herror.symm.trans hviolation)
        exact hstart ▸ Violation.pointsTo_start source hcauses
    · rcases hending with ⟨-, hok⟩ | ⟨w, herror, -⟩
      · obtain rfl := Except.ok.inj (hok.symm.trans hstop)
        exact (finish_eq_error hfinish).pointsTo_end hstop
      · cases herror.symm.trans hstop

end Parse

/-! ## Sources -/

/-- Against valid names, a parse fails with a violation of the reader. -/
theorem Tree.parse_eq_error {source : String} {names : List String} {maxDepth : Nat}
    {e : ParseError} (hnames : Scope.Valid names)
    (h : Tree.parse source names maxDepth = .error e) :
    ∃ v : Violation, Parse.ofScan names maxDepth (Scan.ofText source.toList) = .error v ∧
      v.inSource source = e := by
  rcases Tree.parse_eq_error_iff.mp h with ⟨cause, hfault, -⟩ | ⟨-, v, hscan, rfl⟩
  · cases (Scope.fault?_eq_none_iff.mpr hnames).symm.trans hfault
  · exact ⟨v, hscan, rfl⟩

namespace Arena

variable {source : String} {names : List String} {maxDepth : Nat}

/-- If a source is rejected for a token, or for a character that begins none, the part of
it up to what the error points to goes on to a source that is accepted. -/
theorem exists_extension_of_error {e : ParseError} (hnames : Scope.Valid names)
    (h : Arena.parse source names maxDepth = .error e)
    (hcause : e.cause.concernsToken = true) :
    ∃ before rest : String, source = before ++ rest ∧
      e.PointsTo (Text.byteLength before.toList) ∧
      ∃ suffix a, Arena.parse (before ++ suffix) names maxDepth = .ok a := by
  have hparse : Tree.parse source names maxDepth = .error e := by
    rw [Arena.parse] at h
    cases htree : Tree.parse source names maxDepth with
    | error e' =>
      rw [htree] at h
      exact congrArg _ (Except.error.inj h)
    | ok t =>
      rw [htree] at h
      cases h
  obtain ⟨v, hscan, rfl⟩ := Tree.parse_eq_error hnames hparse
  obtain ⟨before, rest, state, htext, hpoints, hsuspends⟩ :=
    Parse.exists_suspends_of_error hscan hcause
  obtain ⟨suffix, t, ht⟩ := hsuspends.viable
  refine ⟨String.ofList before, String.ofList rest, ?_, ?_, String.ofList suffix,
    ofTree t names.length, ?_⟩
  · rw [← String.ofList_append, ← htext, String.ofList_toList]
  · rw [String.toList_ofList]
    exact hpoints
  · refine parse_eq_ok_iff.mpr ⟨t, Tree.parse_eq_ok_iff.mpr ⟨hnames, ?_⟩, rfl⟩
    rw [← String.ofList_append, String.toList_ofList]
    exact ht

/-- In `1/(0 x` a parenthesis is missing in front of `x`, and `1/(0 ` goes on to an
accepted source although the group cannot be closed there. -/
theorem exists_extension_of_error_divisor :
    ∃ e, Scope.Valid ["x"] ∧ Arena.parse "1/(0 x" ["x"] 1 = .error e ∧
      e.cause.concernsToken = true ∧ e.PointsTo 5 ∧
      ∃ before rest : String, "1/(0 x" = before ++ rest ∧
        e.PointsTo (Text.byteLength before.toList) ∧
        ∃ suffix a, Arena.parse (before ++ suffix) ["x"] 1 = .ok a := by
  have hnames : Scope.Valid ["x"] := by decide +kernel
  have hparse : Arena.parse "1/(0 x" ["x"] 1 =
      .error ⟨.expectedCloseParen ⟨2, 3⟩ "identifier", "1/(0 x", ⟨2, 6⟩⟩ := by
    decide +kernel
  have htoken :
      (⟨.ident "x", ⟨5, 6⟩⟩ : Token) ∈ (Scan.ofText "1/(0 x".toList).tokens := by
    decide +kernel
  exact ⟨_, hnames, hparse, rfl, Or.inl ⟨_, htoken, rfl, rfl⟩,
    exists_extension_of_error hnames hparse rfl⟩

end Arena

end Abacus
