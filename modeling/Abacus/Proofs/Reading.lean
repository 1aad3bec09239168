import Abacus.Proofs.Grammar
import Abacus.Proofs.Meaning
import Abacus.Tree.Parse

set_option autoImplicit false

/-!
# Reading a phrase

The reader takes one token after the other and knows nothing of phrases.  `Phrase.read`
goes the other way round: it takes a phrase apart and builds the tree from the inside.  On
the tokens of a phrase the two agree, and tokens on which the reader succeeds are those of
a phrase.

Main statements:

* `Phrase.ofScan_lexemes`: reading the lexemes of a phrase gives the outcome of
  `Phrase.read`.
* `Parse.exists_phrase`: wherever the reader succeeds, it has read a phrase.
-/

namespace Abacus

open Parse

/-- Two steps succeed together if the first one does, and then the second one. -/
theorem bind_eq_ok_iff {ε α β : Type} {x : Except ε α} {f : α → Except ε β} {b : β} :
    (x >>= f) = .ok b ↔ ∃ a, x = .ok a ∧ f a = .ok b := by
  cases x with
  | error e =>
    constructor
    · intro h
      cases h
    · rintro ⟨a, ha, -⟩
      cases ha
  | ok a =>
    constructor
    · intro h
      exact ⟨a, rfl, h⟩
    · rintro ⟨a', ha, h⟩
      obtain rfl := Except.ok.inj ha
      exact h

/-- Two steps fail together if the first one does, or if it succeeds and the second one
does. -/
theorem bind_eq_error_iff {ε α β : Type} {x : Except ε α} {f : α → Except ε β} {e : ε} :
    (x >>= f) = .error e ↔ x = .error e ∨ ∃ a, x = .ok a ∧ f a = .error e := by
  cases x with
  | error e' =>
    constructor
    · intro h
      exact Or.inl (congrArg _ (Except.error.inj h))
    · rintro (h | ⟨a, ha, -⟩)
      · exact congrArg _ (Except.error.inj h)
      · cases ha
  | ok a =>
    constructor
    · intro h
      exact Or.inr ⟨a, rfl, h⟩
    · rintro (h | ⟨a', ha, h⟩)
      · cases h
      · obtain rfl := Except.ok.inj ha
        exact h

/-- A run of steps fails at one of its elements, and the steps before that succeed. -/
theorem foldlM_eq_error {ε α σ : Type} {f : σ → α → Except ε σ} {xs : List α}
    {s : σ} {e : ε} (h : xs.foldlM f s = .error e) :
    ∃ first x more middle, xs = first ++ x :: more ∧ first.foldlM f s = .ok middle ∧
      f middle x = .error e := by
  induction xs generalizing s with
  | nil => cases h
  | cons x xs ih =>
    rw [List.foldlM_cons] at h
    rcases bind_eq_error_iff.mp h with hstep | ⟨next, hstep, hmore⟩
    · exact ⟨[], x, xs, s, rfl, rfl, hstep⟩
    · obtain ⟨first, y, more, middle, rfl, hfirst, hfail⟩ := ih hmore
      refine ⟨x :: first, y, more, middle, rfl, ?_, hfail⟩
      rw [List.foldlM_cons, hstep]
      exact hfirst

/-- What a run of signs comes to for the reader. -/
def Sign.run (signs : List Sign) : Option Parse.Signs :=
  signs.foldl (fun run s => some (addSign run s.span s.minus)) none

namespace Phrase

variable (names : List String) (maxDepth : Nat)

/-- The tree of a phrase that stands inside `depth` parentheses. -/
def read {level : Level} (depth : Nat) : Phrase level → Except Violation (Tree Span)
  | product body => body.read depth
  | addend left op _ _ right => do
    let l ← left.read depth
    let r ← right.read depth
    return Tree.join op l r
  | signed body => body.read depth
  | factor left op _ _ right => do
    let l ← left.read depth
    let r ← right.read depth
    closeProduct (some ⟨l, op⟩) r
  | atom signs operand => do
    let t ← operand.read depth
    applySigns (Sign.run signs) t
  | literal span value => .ok (.literal span (Int64.ofNat value))
  | ident span name =>
    match names.idxOf? name with
    | some index => .ok (.param span index)
    | none => .error ⟨.undefinedVariable name, span⟩
  | group opening _ body =>
    if depth < maxDepth then body.read (depth + 1)
    else .error ⟨.maxDepthExceeded maxDepth, opening⟩

/-- Takes the tokens of lexemes one by one. -/
def advance (state : State) (lexemes : List Lexeme) : Except Violation State :=
  (lexemes.map Lexeme.token).foldlM (step names maxDepth) state

/-! ## The reader on a phrase -/

/-- What the reader makes of a phrase, wherever one of its level may stand.  On the level
of sums the last addition is still open, since a product may follow. -/
def Accords : {level : Level} → Phrase level → Prop
  | .sum, p => ∀ groups, ∃ result : Except Violation (Option Pending × Tree Span),
      advance names maxDepth (.operand .empty groups) p.lexemes =
        result.map (fun r => .operator r.1 groups r.2) ∧
      p.read names maxDepth groups.length = result.map fun r => closeSum r.1 r.2
  | .product, p => ∀ sum groups,
      advance names maxDepth (.operand ⟨sum, none, none⟩ groups) p.lexemes =
        (p.read names maxDepth groups.length).map (.operator sum groups)
  | .signed, p => ∀ sum product groups,
      advance names maxDepth (.operand ⟨sum, product, none⟩ groups) p.lexemes = do
        let t ← p.read names maxDepth groups.length
        (closeProduct product t).map (.operator sum groups)
  | .atom, p => ∀ context groups,
      advance names maxDepth (.operand context groups) p.lexemes = do
        let t ← p.read names maxDepth groups.length
        takeAtom context groups t

variable {names maxDepth}

theorem advance_cons {state state' : State} {l : Lexeme} {more : List Lexeme}
    (h : step names maxDepth state l.token = .ok state') :
    advance names maxDepth state (l :: more) = advance names maxDepth state' more := by
  rw [advance, List.map_cons, List.foldlM_cons, h]
  rfl

theorem advance_singleton (state : State) (l : Lexeme) :
    advance names maxDepth state [l] = step names maxDepth state l.token := by
  rw [advance, List.map_cons, List.map_nil, List.foldlM_cons]
  cases step names maxDepth state l.token <;> rfl

theorem advance_append_ok {state state' : State} {first more : List Lexeme}
    (h : advance names maxDepth state first = .ok state') :
    advance names maxDepth state (first ++ more) =
      advance names maxDepth state' more := by
  rw [advance] at h
  rw [advance, List.map_append, List.foldlM_append, h]
  rfl

theorem advance_append_error {state : State} {v : Violation} {first more : List Lexeme}
    (h : advance names maxDepth state first = .error v) :
    advance names maxDepth state (first ++ more) = .error v := by
  rw [advance] at h
  rw [advance, List.map_append, List.foldlM_append, h]
  rfl

/-- Lexemes that the reader takes, it takes one part after the other. -/
theorem advance_append_eq_ok_iff {state state' : State} {first more : List Lexeme} :
    advance names maxDepth state (first ++ more) = .ok state' ↔
      ∃ middle, advance names maxDepth state first = .ok middle ∧
        advance names maxDepth middle more = .ok state' := by
  rw [advance, List.map_append, List.foldlM_append]
  exact bind_eq_ok_iff

/-- Where the reader fails, it has taken the lexemes in front of one at which it fails. -/
theorem advance_eq_error {state : State} {v : Violation} {lexemes : List Lexeme}
    (h : advance names maxDepth state lexemes = .error v) :
    ∃ first l more middle, lexemes = first ++ l :: more ∧
      advance names maxDepth state first = .ok middle ∧
      step names maxDepth middle l.token = .error v := by
  simp only [advance, List.foldlM_map] at h ⊢
  exact foldlM_eq_error h

/-- Signs are collected in front of an operand. -/
theorem advance_signs (signs : List Sign) (sum product : Option Pending)
    (run : Option Signs) (groups : List Group) :
    advance names maxDepth (.operand ⟨sum, product, run⟩ groups) (signs.map Sign.lexeme) =
      .ok (.operand ⟨sum, product,
        signs.foldl (fun run s => some (addSign run s.span s.minus)) run⟩ groups) := by
  induction signs generalizing run with
  | nil => rfl
  | cons s signs ih =>
    have hstep :
        step names maxDepth (.operand ⟨sum, product, run⟩ groups) s.lexeme.token =
        .ok (.operand ⟨sum, product, some (addSign run s.span s.minus)⟩ groups) := by
      obtain ⟨minus, span⟩ := s
      cases minus <;> rfl
    rw [List.map_cons, advance_cons hstep, ih, List.foldl_cons]

theorem step_additive {op : Operator} (hop : op.isAdditive = true) (sum : Option Pending)
    (groups : List Group) (operand : Tree Span) (span : Span) :
    step names maxDepth (.operator sum groups operand)
      (Lexeme.token ⟨.operator op, span⟩) =
      .ok (.operand ⟨some ⟨closeSum sum operand, op⟩, none, none⟩ groups) := by
  simp [step, Lexeme.token, Lexeme.Kind.token, hop]

theorem step_multiplicative {op : Operator} (hop : op.isAdditive = false)
    (sum : Option Pending) (groups : List Group) (operand : Tree Span) (span : Span) :
    step names maxDepth (.operator sum groups operand)
      (Lexeme.token ⟨.operator op, span⟩) =
      .ok (.operand ⟨sum, some ⟨operand, op⟩, none⟩ groups) := by
  simp [step, Lexeme.token, Lexeme.Kind.token, hop]

theorem accords_addend {left : Phrase .sum} {op : Operator}
    (additive : op.isAdditive = true) (span : Span) {right : Phrase .product}
    (hl : Accords names maxDepth left) (hr : Accords names maxDepth right) :
    Accords names maxDepth (.addend left op additive span right) := by
  intro groups
  obtain ⟨result, hrun, hread⟩ := hl groups
  cases result with
  | error v => exact ⟨.error v, advance_append_error hrun, by rw [read, hread]; rfl⟩
  | ok pair =>
    obtain ⟨sum, l⟩ := pair
    refine ⟨(right.read names maxDepth groups.length).map
      fun r => (some ⟨closeSum sum l, op⟩, r), ?_, ?_⟩
    · rw [lexemes, advance_append_ok hrun,
        advance_cons (step_additive additive sum groups l span), hr]
      cases right.read names maxDepth groups.length <;> rfl
    · rw [read, hread]
      cases right.read names maxDepth groups.length <;> rfl

theorem accords_factor {left : Phrase .product} {op : Operator}
    (multiplicative : op.isAdditive = false) (span : Span) {right : Phrase .signed}
    (hl : Accords names maxDepth left) (hr : Accords names maxDepth right) :
    Accords names maxDepth (.factor left op multiplicative span right) := by
  intro sum groups
  have hrun := hl sum groups
  rw [read]
  cases hread : left.read names maxDepth groups.length with
  | error v =>
    rw [hread] at hrun
    exact advance_append_error hrun
  | ok l =>
    rw [hread] at hrun
    rw [lexemes, advance_append_ok hrun,
      advance_cons (step_multiplicative multiplicative sum groups l span), hr]
    cases right.read names maxDepth groups.length <;> rfl

theorem accords_atom (signs : List Sign) {operand : Phrase .atom}
    (h : Accords names maxDepth operand) :
    Accords names maxDepth (.atom signs operand) := by
  intro sum product groups
  rw [lexemes, advance_append_ok (advance_signs signs sum product none groups), h, read]
  cases operand.read names maxDepth groups.length with
  | error v => rfl
  | ok t =>
    show takeAtom _ groups t = (applySigns (Sign.run signs) t >>= fun t => _)
    rw [takeAtom, Sign.run]
    cases applySigns (signs.foldl (fun run s => some (addSign run s.span s.minus)) none)
      t with
    | error v => rfl
    | ok u =>
      show (closeProduct product u >>= fun operand => _) = (closeProduct product u).map _
      cases closeProduct product u <;> rfl

theorem accords_group (opening closing : Span) {body : Phrase .sum}
    (h : Accords names maxDepth body) :
    Accords names maxDepth (.group opening closing body) := by
  intro context groups
  rw [read, lexemes]
  by_cases hdepth : groups.length < maxDepth
  · have hstep : step names maxDepth (.operand context groups)
        (Lexeme.token ⟨.openParen, opening⟩) =
          .ok (.operand .empty (⟨context, opening⟩ :: groups)) := by
      simp [step, Lexeme.token, Lexeme.Kind.token, hdepth]
    obtain ⟨result, hrun, hread⟩ := h (⟨context, opening⟩ :: groups)
    rw [if_pos hdepth, advance_cons hstep]
    rw [List.length_cons] at hread
    rw [hread]
    cases result with
    | error v => exact advance_append_error hrun
    | ok pair =>
      rw [advance_append_ok hrun, advance_singleton]
      rfl
  · have hstep :
        step names maxDepth (.operand context groups)
            (Lexeme.token ⟨.openParen, opening⟩) =
          .error ⟨.maxDepthExceeded maxDepth, opening⟩ := by
      simp [step, Lexeme.token, Lexeme.Kind.token, hdepth]
    rw [← advance_singleton] at hstep
    rw [if_neg hdepth]
    exact advance_append_error hstep

/-- On the lexemes of a phrase the reader does what `Phrase.read` does. -/
theorem accords {level : Level} (p : Phrase level) : Accords names maxDepth p := by
  induction p with
  | product body ih =>
    intro groups
    refine ⟨(body.read names maxDepth groups.length).map fun t => (none, t), ?_, ?_⟩
    · rw [lexemes, Context.empty, ih]
      cases body.read names maxDepth groups.length <;> rfl
    · rw [read]
      cases body.read names maxDepth groups.length <;> rfl
  | addend _ _ additive span _ ihl ihr => exact accords_addend additive span ihl ihr
  | signed body ih =>
    intro sum groups
    rw [lexemes, ih, read]
    cases body.read names maxDepth groups.length <;> rfl
  | factor _ _ multiplicative span _ ihl ihr =>
    exact accords_factor multiplicative span ihl ihr
  | atom signs _ ih => exact accords_atom signs ih
  | literal span value =>
    intro context groups
    exact advance_singleton _ _
  | ident span name =>
    intro context groups
    rw [lexemes, advance_singleton, read]
    simp only [step, Lexeme.token, Lexeme.Kind.token]
    cases names.idxOf? name <;> rfl
  | group opening closing _ ih => exact accords_group opening closing ih

/-- Reading all the lexemes of a phrase, and then the end of the input. -/
theorem ofScan_lexemes (p : Phrase .sum) (stop : Nat) :
    ofScan names maxDepth ⟨p.lexemes.map Lexeme.token, .ok stop⟩ =
      p.read names maxDepth 0 := by
  have haccords : Accords names maxDepth p := p.accords
  obtain ⟨result, hrun, hread⟩ := haccords []
  rw [List.length_nil] at hread
  rw [hread]
  show (advance names maxDepth start p.lexemes >>= fun state => finish state stop) = _
  rw [start, hrun]
  cases result <;> rfl

end Phrase

/-! ## Wherever the reader succeeds -/

namespace Parse

open Phrase

/-- What may stand in front of a product: a sum with its operator, or nothing. -/
def BeforeProduct (lexemes : List Lexeme) : Prop :=
  lexemes = [] ∨ ∃ (left : Phrase .sum) (op : Operator) (span : Span),
    op.isAdditive = true ∧ lexemes = left.lexemes ++ [⟨.operator op, span⟩]

/-- What may stand in front of a signed operand. -/
def BeforeSigned (lexemes : List Lexeme) : Prop :=
  BeforeProduct lexemes ∨ ∃ outer, BeforeProduct outer ∧
    ∃ (left : Phrase .product) (op : Operator) (span : Span), op.isAdditive = false ∧
      lexemes = outer ++ (left.lexemes ++ [⟨.operator op, span⟩])

/-- What may stand in front of an atom. -/
def BeforeAtom (lexemes : List Lexeme) : Prop :=
  ∃ outer, BeforeSigned outer ∧
    ∃ signs : List Sign, lexemes = outer ++ signs.map Sign.lexeme

/-- The lexemes up to the innermost of the open parentheses. -/
inductive Opened : Nat → List Lexeme → Prop
  | nil : Opened 0 []
  | cons {depth : Nat} {outer inner : List Lexeme} (span : Span)
    (houter : Opened depth outer)
      (hinner : BeforeAtom inner) :
      Opened (depth + 1) (outer ++ inner ++ [⟨.openParen, span⟩])

/-- The lexemes that a state can have been reached by are the beginning of a phrase. -/
def Reached (lexemes : List Lexeme) : State → Prop
  | .operand _ groups => ∃ outer inner, lexemes = outer ++ inner ∧
      Opened groups.length outer ∧ BeforeAtom inner
  | .operator _ groups _ => ∃ outer inner, ∃ p : Phrase .product,
      lexemes = outer ++ (inner ++ p.lexemes) ∧ Opened groups.length outer ∧
        BeforeProduct inner

theorem BeforeSigned.beforeAtom {lexemes : List Lexeme} (h : BeforeSigned lexemes) :
    BeforeAtom lexemes :=
  ⟨lexemes, h, [], (List.append_nil _).symm⟩

theorem BeforeAtom.append_sign {lexemes : List Lexeme} (h : BeforeAtom lexemes)
    (s : Sign) :
    BeforeAtom (lexemes ++ [s.lexeme]) := by
  obtain ⟨outer, houter, signs, rfl⟩ := h
  exact ⟨outer, houter, signs ++ [s], by simp⟩

/-- An atom completes a product. -/
theorem BeforeAtom.product {lexemes : List Lexeme} (h : BeforeAtom lexemes)
    (a : Phrase .atom) :
    ∃ outer, BeforeProduct outer ∧ ∃ p : Phrase .product,
      lexemes ++ a.lexemes = outer ++ p.lexemes := by
  obtain ⟨outer, houter, signs, rfl⟩ := h
  rcases houter with houter | ⟨outer, houter, left, op, span, hop, rfl⟩
  · exact ⟨outer, houter, .signed (.atom signs a), by simp [Phrase.lexemes]⟩
  · exact ⟨outer, houter,
      .factor left op hop span (.atom signs a), by simp [Phrase.lexemes]⟩

/-- A product completes a sum. -/
theorem BeforeProduct.sum {lexemes : List Lexeme} (h : BeforeProduct lexemes)
    (p : Phrase .product) : ∃ q : Phrase .sum, q.lexemes = lexemes ++ p.lexemes := by
  rcases h with rfl | ⟨left, op, span, hop, rfl⟩
  · exact ⟨.product p, rfl⟩
  · exact ⟨.addend left op hop span p, by simp [Phrase.lexemes]⟩

theorem reached_start : Reached [] start :=
  ⟨[], [], rfl, .nil, BeforeSigned.beforeAtom (Or.inl (Or.inl rfl))⟩

/-- Taking an atom completes a product in front of it. -/
theorem reached_takeAtom {context : Context} {groups : List Group} {t : Tree Span}
    {state : State} {outer inner : List Lexeme}
    (h : takeAtom context groups t = .ok state) (houter : Opened groups.length outer)
    (hinner : BeforeAtom inner) (a : Phrase .atom) :
    Reached (outer ++ inner ++ a.lexemes) state := by
  obtain ⟨before, hbefore, p, hp⟩ := hinner.product a
  obtain ⟨signed, -, h⟩ := bind_eq_ok_iff.mp h
  obtain ⟨operand, -, h⟩ := bind_eq_ok_iff.mp h
  obtain rfl := Except.ok.inj h
  refine ⟨outer, before, p, ?_, houter, hbefore⟩
  rw [List.append_assoc, hp]

section

variable {names : List String} {maxDepth : Nat} {state : State} {lexemes : List Lexeme}

/-- Where an operand has to follow, the reader takes signs, parentheses and atoms. -/
theorem reached_step_operand {context : Context} {groups : List Group}
    {kind : Lexeme.Kind} {span : Span}
    (hreached : Reached lexemes (.operand context groups))
    (h : step names maxDepth (.operand context groups) (Lexeme.token ⟨kind, span⟩) =
      .ok state) :
    Reached (lexemes ++ [⟨kind, span⟩]) state := by
  obtain ⟨outer, inner, rfl, houter, hinner⟩ := hreached
  cases kind with
  | operator op =>
    have hsign (s : Sign) :
        ∃ outer' inner', outer ++ inner ++ [s.lexeme] = outer' ++ inner' ∧
        Opened groups.length outer' ∧ BeforeAtom inner' :=
      ⟨outer, inner ++ [s.lexeme], List.append_assoc _ _ _, houter, hinner.append_sign s⟩
    cases op with
    | add =>
      obtain rfl := Except.ok.inj h
      exact hsign ⟨false, span⟩
    | sub =>
      obtain rfl := Except.ok.inj h
      exact hsign ⟨true, span⟩
    | mul => cases h
    | div => cases h
  | openParen =>
    simp only [step, Lexeme.token, Lexeme.Kind.token] at h
    split at h
    · obtain rfl := Except.ok.inj h
      exact ⟨_, [], (List.append_nil _).symm, .cons span houter hinner,
        BeforeSigned.beforeAtom (Or.inl (Or.inl rfl))⟩
    · cases h
  | closeParen => cases h
  | number value => exact reached_takeAtom h houter hinner (.literal span value)
  | ident name =>
    simp only [step, Lexeme.token, Lexeme.Kind.token] at h
    split at h
    · exact reached_takeAtom h houter hinner (.ident span name)
    · cases h

/-- Behind an operand the reader takes an operator or closes a group. -/
theorem reached_step_operator {sum : Option Pending} {groups : List Group}
    {operand : Tree Span} {kind : Lexeme.Kind} {span : Span}
    (hreached : Reached lexemes (.operator sum groups operand))
    (h : step names maxDepth (.operator sum groups operand) (Lexeme.token ⟨kind, span⟩) =
      .ok state) : Reached (lexemes ++ [⟨kind, span⟩]) state := by
  obtain ⟨outer, inner, p, rfl, houter, hinner⟩ := hreached
  cases kind with
  | operator op =>
    cases hop : op.isAdditive with
    | true =>
      rw [step_additive hop] at h
      obtain rfl := Except.ok.inj h
      obtain ⟨q, hq⟩ := hinner.sum p
      refine ⟨outer, q.lexemes ++ [⟨.operator op, span⟩], ?_, houter,
        BeforeSigned.beforeAtom (Or.inl (Or.inr ⟨q, op, span, hop, rfl⟩))⟩
      rw [hq, List.append_assoc]
    | false =>
      rw [step_multiplicative hop] at h
      obtain rfl := Except.ok.inj h
      refine ⟨outer, inner ++ (p.lexemes ++ [⟨.operator op, span⟩]), ?_, houter,
        BeforeSigned.beforeAtom (Or.inr ⟨inner, hinner, p, op, span, hop, rfl⟩)⟩
      simp
  | closeParen =>
    cases groups with
    | nil => cases h
    | cons group groups =>
      obtain ⟨q, hq⟩ := hinner.sum p
      cases houter with
      | cons opening houter hbefore =>
        have hgroup := reached_takeAtom h houter hbefore (.group opening span q)
        simpa [Phrase.lexemes, hq] using hgroup
  | openParen => cases h
  | number value => cases h
  | ident name => cases h

/-- Every token that the reader takes goes on with the phrase. -/
theorem reached_step {state' : State} {l : Lexeme} (hreached : Reached lexemes state)
    (h : step names maxDepth state l.token = .ok state') :
    Reached (lexemes ++ [l]) state' := by
  cases state with
  | operand => exact reached_step_operand hreached h
  | operator => exact reached_step_operator hreached h

/-- What the reader takes, it takes as the beginning of a phrase. -/
theorem reached_advance {state' : State} {before : List Lexeme}
    (hreached : Reached before state)
    (h : advance names maxDepth state lexemes = .ok state') :
    Reached (before ++ lexemes) state' := by
  induction lexemes generalizing before state with
  | nil =>
    obtain rfl := Except.ok.inj h
    rwa [List.append_nil]
  | cons l more ih =>
    rw [advance, List.map_cons, List.foldlM_cons] at h
    obtain ⟨next, hstep, h⟩ := bind_eq_ok_iff.mp h
    have hmore := ih (reached_step hreached hstep) h
    rwa [List.append_assoc] at hmore

/-- Lexemes that the reader accepts are those of a phrase. -/
theorem exists_phrase {stop : Nat} {t : Tree Span}
    (h : ofScan names maxDepth ⟨lexemes.map Lexeme.token, .ok stop⟩ = .ok t) :
    ∃ p : Phrase .sum, p.lexemes = lexemes := by
  obtain ⟨state, hrun, h⟩ := bind_eq_ok_iff.mp h
  replace h : finish state stop = .ok t := h
  have hreached := reached_advance reached_start hrun
  rw [List.nil_append] at hreached
  cases state with
  | operand => cases h
  | operator sum groups operand =>
    cases groups with
    | cons => cases h
    | nil =>
      obtain ⟨outer, inner, p, rfl, houter, hinner⟩ := hreached
      cases houter
      exact hinner.sum p

end

end Parse

end Abacus
