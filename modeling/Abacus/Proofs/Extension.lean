import Abacus.Proofs.Language

set_option autoImplicit false

/-!
# Going on from what has been read

`Parse.Suspends` says in which state a text leaves the reader that has not seen the end
yet.  A text can be cut in front of any of its lexemes, and it can go on with one more
lexeme on a new line.  Hence whatever state the reader is in, the text goes on to one that
is accepted: it lacks at most an operand and closing parentheses.  Two groups must not be
closed as they are, a zero which may be a divisor and the least integer which may be
negated; one more than that is neither.

Main statements:

* `Parse.Suspends.cut`: what stands in front of a lexeme suspends the reader, too.
* `Parse.Suspends.viable`: every text that suspends the reader goes on to an accepted one.
-/

namespace Abacus

/-! ## Cutting and extending a text -/

theorem Layout.append_lineFeed {inComment ending : Bool} {layout : List Char}
    (h : Layout inComment ending layout) : Layout inComment false (layout ++ ['\n']) := by
  induction h with
  | nil inComment =>
    cases inComment with
    | false => exact .blank (by decide) (.nil false)
    | true => exact .lineFeed (.nil false)
  | blank hc _ ih => exact .blank hc ih
  | opening _ ih => exact .opening ih
  | comment hc _ ih => exact .comment hc ih
  | lineFeed _ ih => exact .lineFeed ih

/-- No lexeme goes on behind a line feed. -/
theorem Spelling.append_lineFeed {kind : Lexeme.Kind} {text rest : List Char}
    (h : Spelling kind text rest) (more : List Char) :
    Spelling kind text (rest ++ '\n' :: more) := by
  have hhead {p : Char → Bool} (hp : p '\n' = false)
      (hrest : ∀ d ∈ rest.head?, p d = false) :
      ∀ d ∈ (rest ++ '\n' :: more).head?, p d = false := by
    cases rest with
    | nil =>
      intro d hd
      rw [← Option.some.inj hd, hp]
    | cons c cs => exact hrest
  cases h with
  | operator op => exact .operator op _
  | openParen => exact .openParen _
  | closeParen => exact .closeParen _
  | number hdigits hrest => exact .number hdigits (hhead (by decide) hrest)
  | ident hstart hpart hrest => exact .ident hstart hpart (hhead (by decide) hrest)

namespace Spelled

variable {offset stop : Nat} {text : List Char} {lexemes : List Lexeme}

/-- A text goes on with a lexeme on a new line, even if it ends inside a comment. -/
theorem extend {kind : Lexeme.Kind} {spelled : List Char}
    (h : Spelled offset text lexemes stop) (hkind : Spelling kind spelled []) :
    ∃ l : Lexeme, ∃ stop', l.kind = kind ∧
      Spelled offset (text ++ '\n' :: spelled) (lexemes ++ [l]) stop' := by
  induction h with
  | @finished offset layout ending hlayout =>
    have hstart : offset + Text.byteLength (layout ++ ['\n']) = _ := rfl
    have hlexeme := Spelled.lexeme hlayout.append_lineFeed hstart.symm hkind rfl
      (.finished (.nil false))
    rw [List.append_nil, List.append_assoc] at hlexeme
    exact ⟨_, _, rfl, hlexeme⟩
  | lexeme hlayout hstart htext hnext _ ih =>
    obtain ⟨l, stop', hl, hmore⟩ := ih
    refine ⟨l, stop', hl, ?_⟩
    rw [List.append_assoc, List.cons_append]
    exact .lexeme hlayout hstart (htext.append_lineFeed spelled) hnext hmore

/-- What stands in front of a lexeme is spelled with the lexemes in front of it. -/
theorem cut {first more : List Lexeme} {l : Lexeme}
    (h : Spelled offset text (first ++ l :: more) stop) :
    ∃ before rest, text = before ++ rest ∧
      l.span.start = offset + Text.byteLength before ∧
      Spelled offset before first l.span.start := by
  induction first generalizing offset text with
  | nil =>
    cases h with
    | lexeme hlayout hstart =>
      exact ⟨_, _, List.append_assoc _ _ _, hstart, hstart ▸ .finished hlayout⟩
  | cons m first ih =>
    cases h with
    | lexeme hlayout hstart htext hnext hrest =>
      obtain ⟨before, rest, rfl, -, hbefore⟩ := ih hrest
      have hspelled := Spelled.lexeme hlayout hstart htext.of_append hnext hbefore
      exact ⟨_, rest, (List.append_assoc _ _ _).symm, hspelled.stop_eq, hspelled⟩

end Spelled

/-! ## Texts that suspend the reader -/

namespace Parse

open Phrase

variable {names : List String} {maxDepth : Nat} {text : List Char} {state : State}

/-- Reading all lexemes of the text, but not its end, leaves the reader in the state. -/
def Suspends (names : List String) (maxDepth : Nat) (text : List Char)
    (state : State) : Prop :=
  ∃ lexemes stop, Spelled 0 text lexemes stop ∧ (∀ l ∈ lexemes, l.Fits) ∧
    advance names maxDepth start lexemes = .ok state

/-- A text suspends the reader in front of each of its lexemes. -/
theorem Suspends.cut {first more : List Lexeme} {l : Lexeme} {stop : Nat}
    (h : Spelled 0 text (first ++ l :: more) stop) (hfits : ∀ m ∈ first, m.Fits)
    (hrun : advance names maxDepth start first = .ok state) :
    ∃ before rest, text = before ++ rest ∧ l.span.start = Text.byteLength before ∧
      Suspends names maxDepth before state := by
  obtain ⟨before, rest, htext, hstart, hspelled⟩ := h.cut
  rw [Nat.zero_add] at hstart
  exact ⟨before, rest, htext, hstart, first, _, hspelled, hfits, hrun⟩

/-- A text goes on with a lexeme that the reader takes wherever it stands. -/
theorem Suspends.extend {kind : Lexeme.Kind} {spelled : List Char} {P : State → Prop}
    (h : Suspends names maxDepth text state) (hkind : Spelling kind spelled [])
    (hfits : ∀ span, Lexeme.Fits ⟨kind, span⟩)
    (hstep : ∀ span, ∃ state',
      step names maxDepth state (Lexeme.token ⟨kind, span⟩) = .ok state' ∧ P state') :
    ∃ suffix state', Suspends names maxDepth (text ++ suffix) state' ∧ P state' := by
  obtain ⟨lexemes, stop, hspelled, hlexemes, hrun⟩ := h
  obtain ⟨⟨_, span⟩, stop', rfl, hextended⟩ := hspelled.extend hkind
  obtain ⟨state', hstate, hP⟩ := hstep span
  refine ⟨_, state', ⟨_, stop', hextended, ?_, ?_⟩, hP⟩
  · rw [List.forall_mem_append, List.forall_mem_singleton]
    exact ⟨hlexemes, hfits span⟩
  · rw [advance_append_ok hrun, advance_singleton, hstate]

/-- A text at whose end the reader can stop is read. -/
theorem Suspends.ofScan_eq_ok (h : Suspends names maxDepth text state) {t : Tree Span}
    (hfinish : ∀ stop, finish state stop = .ok t) :
    ofScan names maxDepth (Scan.ofText text) = .ok t := by
  obtain ⟨lexemes, stop, hspelled, hfits, hrun⟩ := h
  have hscan : Scan.ofText text = Scan.ofLexemes stop lexemes :=
    Scan.scanFrom_of_spelled hspelled
  rw [hscan, Scan.ofLexemes_of_fits hfits]
  exact bind_eq_ok_iff.mpr ⟨state, hrun, hfinish stop⟩

/-! ## Completing a state -/

/-- A tree that may be negated and may be a divisor: neither the least literal nor a
literal zero. -/
def Harmless (t : Tree Span) : Prop :=
  t.literal? ≠ some 0 ∧ t.literal? ≠ some Int64.minValue

instance (t : Tree Span) : Decidable (Harmless t) := inferInstanceAs (Decidable (_ ∧ _))

/-- Signs apply to a harmless operand, and do not make it a zero. -/
theorem Harmless.exists_applySigns {t : Tree Span} (h : Harmless t)
    (signs : Option Signs) :
    ∃ u, applySigns signs t = .ok u ∧ u.literal? ≠ some 0 := by
  unfold applySigns
  split
  · dsimp only
    split
    · rename_i value hvalue
      have hmin : value ≠ Int64.minValue := fun heq => h.2 (heq ▸ hvalue)
      have hzero : -value ≠ 0 := by
        intro heq
        have hback : value = -0 := by rw [← heq, Int64.neg_neg]
        exact h.1 (hvalue.trans (congrArg some hback))
      rw [if_neg hmin]
      exact ⟨_, rfl, fun heq => hzero (Option.some.inj heq)⟩
    · exact ⟨_, rfl, nofun⟩
  · exact ⟨t, rfl, h.1⟩

theorem exists_closeProduct (product : Option Pending) {right : Tree Span}
    (h : right.literal? ≠ some 0) : ∃ t, closeProduct product right = .ok t := by
  cases product with
  | none => exact ⟨right, rfl⟩
  | some pending =>
    exact (exists_closeProduct_iff pending.left right pending.op).mpr fun _ => h

/-- A harmless operand completes whatever waits for it. -/
theorem Harmless.exists_takeAtom {t : Tree Span} (h : Harmless t) (context : Context)
    (groups : List Group) :
    ∃ operand,
      takeAtom context groups t = .ok (.operator context.sum groups operand) := by
  obtain ⟨signed, hsigns, hzero⟩ := h.exists_applySigns context.signs
  obtain ⟨operand, hproduct⟩ := exists_closeProduct context.product hzero
  exact ⟨operand, bind_eq_ok_iff.mpr ⟨signed, hsigns,
    bind_eq_ok_iff.mpr ⟨operand, hproduct, rfl⟩⟩⟩

theorem harmless_one (span : Span) : Harmless (.literal span 1) := by
  constructor
  · show some (1 : Int64) ≠ some 0
    decide
  · show some (1 : Int64) ≠ some Int64.minValue
    decide

/-- One more than a literal that is not harmless is harmless. -/
theorem harmless_succ {t : Tree Span} (h : ¬ Harmless t) (span : Span) :
    Harmless (closeSum (some ⟨t, .add⟩) (.literal span 1)) := by
  have hvalue : t.literal? = some 0 ∨ t.literal? = some Int64.minValue := by
    by_contra hne
    exact h ⟨fun heq => hne (Or.inl heq), fun heq => hne (Or.inr heq)⟩
  have hsum : (closeSum (some ⟨t, .add⟩) (.literal span 1)).literal? =
      Operator.combine? .add t.literal? (some 1) :=
    Tree.literal?_join .add t (.literal span 1)
  rw [Harmless, hsum]
  rcases hvalue with heq | heq <;> rw [heq] <;> decide

theorem spelling_one : Spelling (.number 1) ['1'] [] := by
  have hdigits : ∀ d ∈ '1' :: [], d.isDigit = true := List.forall_mem_singleton.mpr rfl
  exact .number hdigits (by simp)

theorem fits_one (span : Span) : Lexeme.Fits ⟨.number 1, span⟩ := by
  intro n hn
  obtain rfl := Lexeme.Kind.number.inj hn
  decide

/-- Behind a harmless sum, its group can be closed. -/
theorem Suspends.exists_closed {sum : Option Pending} {group : Group} {outer : List Group}
    {operand : Tree Span}
    (h : Suspends names maxDepth text (.operator sum (group :: outer) operand))
    (hharmless : Harmless (closeSum sum operand)) :
    ∃ suffix t,
      Suspends names maxDepth (text ++ suffix) (.operator group.context.sum outer t) := by
  obtain ⟨t, ht⟩ := hharmless.exists_takeAtom group.context outer
  obtain ⟨suffix, _, hsuspends, rfl⟩ := h.extend
    (P := fun state => state = .operator group.context.sum outer t) (.closeParen [])
    (fun _ n hn => by cases hn) fun span => ⟨_, ht, rfl⟩
  exact ⟨suffix, t, hsuspends⟩

/-- Where an operand has to follow, a one does. -/
theorem Suspends.exists_operand {context : Context} {groups : List Group}
    (h : Suspends names maxDepth text (.operand context groups)) :
    ∃ suffix t,
      Suspends names maxDepth (text ++ suffix) (.operator context.sum groups t) := by
  obtain ⟨suffix, _, hsuspends, t, rfl⟩ := h.extend
    (P := fun state => ∃ t, state = .operator context.sum groups t) spelling_one fits_one
    fun span => by
      obtain ⟨t, ht⟩ := (harmless_one span).exists_takeAtom context groups
      exact ⟨_, ht, t, rfl⟩
  exact ⟨suffix, t, hsuspends⟩

/-- Behind a sum that is not harmless, one more makes it so. -/
theorem Suspends.exists_succ {sum : Option Pending} {groups : List Group}
    {operand : Tree Span}
    (h : Suspends names maxDepth text (.operator sum groups operand))
    (hharmless : ¬ Harmless (closeSum sum operand)) :
    ∃ suffix sum' operand',
      Suspends names maxDepth (text ++ suffix) (.operator sum' groups operand') ∧
        Harmless (closeSum sum' operand') := by
  obtain ⟨plus, _, hplus, rfl⟩ := h.extend
    (P := fun state =>
      state = .operand ⟨some ⟨closeSum sum operand, .add⟩, none, none⟩ groups)
    (.operator .add []) (fun _ n hn => by cases hn)
    fun span => ⟨_, step_additive rfl sum groups operand span, rfl⟩
  obtain ⟨one, _, hone, span, rfl⟩ := hplus.extend
    (P := fun state => ∃ span, state =
      .operator (some ⟨closeSum sum operand, .add⟩) groups (.literal span 1))
    spelling_one fits_one fun span => ⟨_, rfl, span, rfl⟩
  rw [List.append_assoc] at hone
  exact ⟨_, _, _, hone, harmless_succ hharmless span⟩

/-- A group can be closed behind any operand, if need be after one more. -/
theorem Suspends.exists_outer {sum : Option Pending} {group : Group} {outer : List Group}
    {operand : Tree Span}
    (h : Suspends names maxDepth text (.operator sum (group :: outer) operand)) :
    ∃ suffix t,
      Suspends names maxDepth (text ++ suffix) (.operator group.context.sum outer t) := by
  by_cases hharmless : Harmless (closeSum sum operand)
  · exact h.exists_closed hharmless
  · obtain ⟨more, _, _, hsucc, hharmless'⟩ := h.exists_succ hharmless
    obtain ⟨closing, t, hclosed⟩ := hsucc.exists_closed hharmless'
    rw [List.append_assoc] at hclosed
    exact ⟨_, t, hclosed⟩

/-- The text goes on to one that is accepted. -/
def Viable (names : List String) (maxDepth : Nat) (text : List Char) : Prop :=
  ∃ suffix t, ofScan names maxDepth (Scan.ofText (text ++ suffix)) = .ok t

theorem Viable.of_append {more : List Char} (h : Viable names maxDepth (text ++ more)) :
    Viable names maxDepth text := by
  obtain ⟨suffix, t, ht⟩ := h
  rw [List.append_assoc] at ht
  exact ⟨more ++ suffix, t, ht⟩

/-- Behind an operand, closing the open groups from the inside out completes the text. -/
theorem Suspends.viable_of_operator {sum : Option Pending} {groups : List Group}
    {operand : Tree Span}
    (h : Suspends names maxDepth text (.operator sum groups operand)) :
    Viable names maxDepth text := by
  induction groups generalizing text sum operand with
  | nil =>
    refine ⟨[], closeSum sum operand, ?_⟩
    rw [List.append_nil]
    exact h.ofScan_eq_ok fun _ => rfl
  | cons group outer ih =>
    obtain ⟨suffix, _, houter⟩ := h.exists_outer
    exact (ih houter).of_append

/-- Every text that suspends the reader goes on to one that is accepted. -/
theorem Suspends.viable (h : Suspends names maxDepth text state) :
    Viable names maxDepth text := by
  cases state with
  | operator sum groups operand => exact h.viable_of_operator
  | operand context groups =>
    obtain ⟨one, _, hone⟩ := h.exists_operand
    exact hone.viable_of_operator.of_append

end Parse

end Abacus
