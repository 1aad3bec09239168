import Mathlib.Data.List.Infix
import Abacus.Proofs.ViablePrefix

set_option autoImplicit false

/-!
# The limit on open parentheses

The reader asks for its limit in one place, when it takes an opening parenthesis: as many
groups must be open there as the parentheses in front of it that are not closed yet.  So
two runs under different limits go side by side until the smaller limit is exceeded, and
that happens at the first parenthesis that is nested too deep.

Main statements:

* `Parse.ofScan_agrees`: under a larger limit the outcome is the same, unless the smaller
  one was exceeded.
* `Parse.exceeds_of_ofScan`: where the limit is exceeded.
* `Arena.parse_limit`: both for sources, and the limits under which an accepted source is
  accepted.
-/

namespace Abacus

namespace Token

/-- How many parentheses are open behind the tokens, when none is in front of them. -/
def openParens (tokens : List Token) : Int :=
  tokens.countP (·.kind = .openParen) - tokens.countP (·.kind = .closeParen)

/-- How deep the parentheses of the tokens are nested: how many are open at most at a
time. -/
def nesting (tokens : List Token) : Nat :=
  (tokens.inits.map fun before => (openParens before).toNat).foldr max 0

/-- The token is the first opening parenthesis in front of which `limit` parentheses are
open. -/
def FirstBeyond (limit : Nat) (tokens : List Token) (t : Token) : Prop :=
  t.kind = .openParen ∧ ∃ before after, tokens = before ++ t :: after ∧
    openParens before = limit ∧
    ∀ first u more, before = first ++ u :: more → u.kind = .openParen →
      openParens first < limit

theorem openParens_append (first more : List Token) :
    openParens (first ++ more) = openParens first + openParens more := by
  simp only [openParens, List.countP_append]
  omega

theorem openParens_singleton (t : Token) :
    openParens [t] =
      (if t.kind = .openParen then 1 else 0) - if t.kind = .closeParen then 1 else 0 := by
  rw [openParens, List.countP_singleton, List.countP_singleton]
  simp only [decide_eq_true_eq]
  split <;> split <;> rfl

theorem nesting_le_iff {tokens : List Token} {n : Nat} :
    nesting tokens ≤ n ↔ ∀ before after, tokens = before ++ after →
      openParens before ≤ n := by
  have hmax : ∀ list : List Nat, list.foldr max 0 ≤ n ↔ ∀ k ∈ list, k ≤ n := by
    intro list
    induction list with
    | nil => simp
    | cons k list ih => rw [List.foldr_cons, Nat.max_le, ih, List.forall_mem_cons]
  simp only [nesting, hmax, List.forall_mem_map, List.mem_inits, Int.toNat_le]
  constructor
  · intro h before after heq
    exact h before ⟨after, heq.symm⟩
  · rintro h before ⟨after, heq⟩
    exact h before after heq.symm

end Token

namespace Parse

open Token (openParens)

variable {names : List String} {limit limit' : Nat} {state state' : State} {token : Token}
  {v : Violation}

/-- The groups that are open in a state, from the inside out. -/
def State.groups : State → List Group
  | .operand _ groups => groups
  | .operator _ groups _ => groups

/-! ## Runs under two limits -/

/-- The outcomes are the same, unless the first one is that the limit was exceeded. -/
def Agrees {α : Type} (limit : Nat) (r r' : Except Violation α) : Prop :=
  r' = r ∨ ∃ v, r = .error v ∧ v.cause = .maxDepthExceeded limit

theorem Agrees.refl {α : Type} (r : Except Violation α) : Agrees limit r r := Or.inl rfl

theorem Agrees.bind {α β : Type} {r r' : Except Violation α}
    {f f' : α → Except Violation β} (h : Agrees limit r r')
    (hf : ∀ a, Agrees limit (f a) (f' a)) :
    Agrees limit (r >>= f) (r' >>= f') := by
  rcases h with rfl | ⟨v, rfl, hv⟩
  · cases r' with
    | error v => exact .refl _
    | ok a => exact hf a
  · exact Or.inr ⟨v, rfl, hv⟩

/-- A step asks for the limit at an opening parenthesis only. -/
theorem step_agrees (hle : limit ≤ limit') (state : State) (token : Token) :
    Agrees limit (step names limit state token) (step names limit' state token) := by
  obtain ⟨kind, span⟩ := token
  cases state with
  | operand context groups =>
    cases kind with
    | openParen =>
      simp only [step]
      by_cases h : groups.length < limit
      · rw [if_pos h, if_pos (Nat.lt_of_lt_of_le h hle)]
        exact .refl _
      · rw [if_neg h]
        exact Or.inr ⟨_, rfl, rfl⟩
    | operator op => cases op <;> exact .refl _
    | closeParen | int | ident => exact .refl _
  | operator sum groups operand => exact .refl _

theorem foldlM_agrees (hle : limit ≤ limit') (tokens : List Token) (state : State) :
    Agrees limit (tokens.foldlM (step names limit) state)
      (tokens.foldlM (step names limit') state) := by
  induction tokens generalizing state with
  | nil => exact .refl _
  | cons token tokens ih => exact (step_agrees hle state token).bind ih

/-- Under a larger limit the outcome is the same, unless the smaller one was exceeded. -/
theorem ofScan_agrees (names : List String) (hle : limit ≤ limit') (scan : Scan) :
    Agrees limit (ofScan names limit scan) (ofScan names limit' scan) :=
  (foldlM_agrees hle scan.tokens start).bind fun _ => .refl _

/-! ## The number of open groups -/

theorem groups_of_takeAtom {context : Context} {groups : List Group} {atom : Tree Span}
    (h : takeAtom context groups atom = .ok state) : state.groups = groups := by
  obtain ⟨signed, operand, -, -, rfl⟩ := takeAtom_eq_ok h
  rfl

/-- A step opens a group with a parenthesis, if the limit allows it, and closes one with
another. -/
theorem length_groups_of_step (h : step names limit state token = .ok state') :
    (state'.groups.length : Int) = state.groups.length + openParens [token] ∧
      (token.kind = .openParen → state.groups.length < limit) := by
  have htransition := transition_step names limit state token
  generalize step names limit state token = result at h htransition
  cases htransition with
  | sign | additive | multiplicative =>
    obtain rfl := Except.ok.inj h
    exact ⟨(Int.add_zero _).symm, nofun⟩
  | literal | param =>
    rw [groups_of_takeAtom h]
    exact ⟨(Int.add_zero _).symm, nofun⟩
  | opening context groups span hlt =>
    obtain rfl := Except.ok.inj h
    exact ⟨rfl, fun _ => hlt⟩
  | closing sum group outer operand span =>
    rw [groups_of_takeAtom h]
    have hlength : ((group :: outer).length : Int) = outer.length + 1 := rfl
    have hclose : openParens [⟨.closeParen, span⟩] = -1 := rfl
    rw [State.groups, hlength, hclose]
    exact ⟨by omega, nofun⟩
  | undefined | tooDeep | noOperand | noOperator => cases h

/-- As many groups are open as parentheses in what the reader has taken. -/
theorem length_groups_of_foldlM {tokens : List Token}
    (h : tokens.foldlM (step names limit) state = .ok state') :
    (state'.groups.length : Int) = state.groups.length + openParens tokens := by
  induction tokens generalizing state with
  | nil =>
    obtain rfl := Except.ok.inj h
    simp [openParens]
  | cons token tokens ih =>
    obtain ⟨next, hstep, h⟩ := bind_eq_ok_iff.mp h
    have hnext := (length_groups_of_step hstep).1
    have hmore := ih h
    have happend := Token.openParens_append [token] tokens
    rw [List.singleton_append] at happend
    omega

/-- No more groups are open than the limit allows. -/
theorem length_groups_le {tokens : List Token}
    (h : tokens.foldlM (step names limit) state = .ok state')
    (hstate : state.groups.length ≤ limit) : state'.groups.length ≤ limit := by
  induction tokens generalizing state with
  | nil =>
    obtain rfl := Except.ok.inj h
    exact hstate
  | cons token tokens ih =>
    obtain ⟨next, hstep, h⟩ := bind_eq_ok_iff.mp h
    obtain ⟨hlength, hopen⟩ := length_groups_of_step hstep
    refine ih h ?_
    by_cases hkind : token.kind = .openParen
    · have hlt := hopen hkind
      rw [Token.openParens_singleton, if_pos hkind] at hlength
      split at hlength <;> omega
    · rw [Token.openParens_singleton, if_neg hkind] at hlength
      split at hlength <;> omega

/-! ## Where the limit is exceeded -/

/-- A step exceeds the limit only at an opening parenthesis for which there is no room. -/
theorem exceeds_of_step {n : Nat} (h : step names limit state token = .error v)
    (hcause : v.cause = .maxDepthExceeded n) :
    n = limit ∧ v.span = token.span ∧ token.kind = .openParen ∧
      limit ≤ state.groups.length := by
  rcases complaint_of_step h with hcomplaint | ⟨rfl, hkind, context, groups, rfl, hle⟩
  · rw [hcause] at hcomplaint
    cases hcomplaint
  · exact ⟨(ParseError.Cause.maxDepthExceeded.inj hcause).symm, rfl, hkind, hle⟩

/-- Where the reader takes an opening parenthesis, fewer parentheses than the limit are
open. -/
theorem openParens_lt {first more : List Token} {u : Token}
    (h : (first ++ u :: more).foldlM (step names limit) start = .ok state)
    (hu : u.kind = .openParen) : openParens first < limit := by
  rw [List.foldlM_append] at h
  obtain ⟨middle, hfirst, h⟩ := bind_eq_ok_iff.mp h
  obtain ⟨next, hstep, -⟩ := bind_eq_ok_iff.mp h
  have hlength : (middle.groups.length : Int) = 0 + openParens first :=
    length_groups_of_foldlM hfirst
  have hlt := (length_groups_of_step hstep).2 hu
  omega

/-- The limit is exceeded at the first opening parenthesis in front of which as many are
open as it allows. -/
theorem exceeds_of_ofScan {scan : Scan} {n : Nat}
    (hscan : ∀ w, scan.ending = .error w → w.cause ≠ .maxDepthExceeded n)
    (h : ofScan names limit scan = .error v) (hcause : v.cause = .maxDepthExceeded n) :
    n = limit ∧ ∃ t, Token.FirstBeyond limit scan.tokens t ∧ v.span = t.span := by
  rcases bind_eq_error_iff.mp h with hrun | ⟨state, -, h⟩
  · obtain ⟨before, t, after, state, htokens, hbefore, hstep⟩ := foldlM_eq_error hrun
    obtain ⟨rfl, hspan, hkind, hle⟩ := exceeds_of_step hstep hcause
    refine ⟨rfl, t, ⟨hkind, before, after, htokens, ?_, ?_⟩, hspan⟩
    · have hlength : (state.groups.length : Int) = 0 + openParens before :=
        length_groups_of_foldlM hbefore
      have hge := length_groups_le hbefore (Nat.zero_le n)
      omega
    · rintro first u more rfl hu
      exact openParens_lt hbefore hu
  · rcases bind_eq_error_iff.mp h with hending | ⟨offset, -, hfinish⟩
    · exact absurd hcause (hscan v hending)
    · have hcomplaint := complaint_of_finish hfinish
      rw [hcause] at hcomplaint
      cases hcomplaint

/-- What is read is not nested deeper than the limit. -/
theorem nesting_le_of_ofScan {scan : Scan} {t : Tree Span}
    (h : ofScan names limit scan = .ok t) : Token.nesting scan.tokens ≤ limit := by
  obtain ⟨state, hrun, -⟩ := bind_eq_ok_iff.mp h
  refine Token.nesting_le_iff.mpr fun before after htokens => ?_
  rw [htokens, List.foldlM_append] at hrun
  obtain ⟨middle, hbefore, -⟩ := bind_eq_ok_iff.mp hrun
  have hlength : (middle.groups.length : Int) = 0 + openParens before :=
    length_groups_of_foldlM hbefore
  have hle := length_groups_le hbefore (Nat.zero_le limit)
  omega

end Parse

/-- Tokens with a parenthesis beyond the limit are nested deeper than it. -/
theorem Token.FirstBeyond.lt_nesting {limit : Nat} {tokens : List Token} {t : Token}
    (h : FirstBeyond limit tokens t) : limit < nesting tokens := by
  obtain ⟨hkind, before, after, rfl, hopen, -⟩ := h
  by_contra hle
  have hcount := nesting_le_iff.mp (Nat.le_of_not_lt hle) (before ++ [t]) after (by simp)
  have hone : openParens [t] = 1 := by simp [openParens, hkind]
  rw [openParens_append, hone] at hcount
  omega

namespace Arena

variable {source : String} {names : List String} {limit limit' : Nat}

/-- Under a larger limit a source has the same arena, or the same error, unless the
smaller limit was exceeded. -/
theorem parse_agrees (hle : limit ≤ limit') :
    Arena.parse source names limit' = Arena.parse source names limit ∨
      ∃ e, Arena.parse source names limit = .error e ∧
        e.cause = .maxDepthExceeded limit := by
  cases hfault : Scope.fault? names with
  | some cause => exact Or.inl (by simp only [Arena.parse, Tree.parse, hfault])
  | none =>
    rcases Parse.ofScan_agrees names hle (Scan.ofText source.toList) with
      heq | ⟨v, hv, hcause⟩
    · exact Or.inl (by simp only [Arena.parse, Tree.parse, heq])
    · exact Or.inr ⟨v.inSource source, parse_eq_error_iff.mpr
        (Tree.parse_eq_error_iff.mpr (Or.inr ⟨hfault, v, hv, rfl⟩)), hcause⟩

/-- The error about the limit names the limit and the first parenthesis beyond it. -/
theorem firstBeyond_of_parse {e : ParseError} {n : Nat}
    (h : Arena.parse source names limit = .error e)
    (hcause : e.cause = .maxDepthExceeded n) :
    n = limit ∧ ∃ t, Token.FirstBeyond limit (Scan.ofText source.toList).tokens t ∧
      e.span = t.span := by
  rcases Tree.parse_eq_error_iff.mp (parse_eq_error_iff.mp h) with
    ⟨cause, hfault, rfl⟩ | ⟨-, v, hscan, rfl⟩
  · obtain rfl : cause = .maxDepthExceeded n := hcause
    exact absurd rfl (Scope.argument_ne_none_of_fault? hfault)
  · refine Parse.exceeds_of_ofScan (fun w hw => ?_) hscan hcause
    rcases Scan.isViolation_of_ending hw with hrange | ⟨c, hc⟩
    · rw [hrange]
      nofun
    · rw [hc]
      nofun

/-- An accepted source has the same arena under any other limit that it does not
exceed. -/
theorem parse_eq_or_exceeds {a : Arena} (h : Arena.parse source names limit = .ok a)
    (k : Nat) :
    Arena.parse source names k = .ok a ∨
      ∃ e, Arena.parse source names k = .error e ∧ e.cause = .maxDepthExceeded k := by
  rcases Nat.le_total limit k with hle | hle
  · rcases parse_agrees hle with heq | ⟨e, he, -⟩
    · exact Or.inl (heq.trans h)
    · cases h.symm.trans he
  · exact (parse_agrees hle).imp (fun heq => heq.symm.trans h) id

theorem nesting_le_of_parse {a : Arena} (h : Arena.parse source names limit = .ok a) :
    Token.nesting (Scan.ofText source.toList).tokens ≤ limit := by
  obtain ⟨t, ht, -⟩ := parse_eq_ok_iff.mp h
  exact Parse.nesting_le_of_ofScan (Tree.parse_eq_ok_iff.mp ht).2

/-- A limit that is not exceeded does not show: under any larger one a source has the same
arena, or the same error.  Where a limit is exceeded, the error names it and the first
parenthesis in front of which as many are open as it allows.  So an accepted source has
the same arena under all limits that are not smaller than its nesting, and is rejected for
each smaller one. -/
theorem parse_limit (source : String) (names : List String) (hle : limit ≤ limit') :
    ((∀ e n, Arena.parse source names limit = .error e → e.cause ≠ .maxDepthExceeded n) →
      Arena.parse source names limit' = Arena.parse source names limit) ∧
    (∀ e n, Arena.parse source names limit = .error e → e.cause = .maxDepthExceeded n →
      n = limit ∧ ∃ t, Token.FirstBeyond limit (Scan.ofText source.toList).tokens t ∧
        e.span = t.span) ∧
    (∀ a, Arena.parse source names limit = .ok a → ∀ k,
      (Arena.parse source names k = .ok a ↔
        Token.nesting (Scan.ofText source.toList).tokens ≤ k) ∧
      (k < Token.nesting (Scan.ofText source.toList).tokens →
        ∃ e, Arena.parse source names k = .error e ∧ e.cause = .maxDepthExceeded k)) := by
  refine ⟨fun h => ?_, fun e n => firstBeyond_of_parse, fun a ha k => ?_⟩
  · exact (parse_agrees hle).resolve_right fun ⟨e, he, hcause⟩ => h e limit he hcause
  · rcases parse_eq_or_exceeds ha k with hk | ⟨e, hk, hcause⟩
    · exact ⟨iff_of_true hk (nesting_le_of_parse hk), fun hlt =>
        absurd (nesting_le_of_parse hk) (Nat.not_le_of_lt hlt)⟩
    · obtain ⟨-, t, hbeyond, -⟩ := firstBeyond_of_parse hk hcause
      refine ⟨iff_of_false (fun hok => ?_) (Nat.not_le_of_lt hbeyond.lt_nesting),
        fun _ => ⟨e, hk, hcause⟩⟩
      cases hk.symm.trans hok

/-- With one level of parentheses the second one of `((x))` is beyond the limit, and with
two or more the source is accepted. -/
theorem parse_limit_nested :
    1 ≤ 2 ∧
    (∃ e, Arena.parse "((x))" ["x"] 1 = .error e ∧ e.cause = .maxDepthExceeded 1 ∧
      ∃ t, Token.FirstBeyond 1 (Scan.ofText "((x))".toList).tokens t ∧ e.span = t.span) ∧
    ∃ a, Arena.parse "((x))" ["x"] 2 = .ok a ∧ Arena.parse "((x))" ["x"] 7 = .ok a := by
  have hexceeded : Arena.parse "((x))" ["x"] 1 =
      .error ⟨.maxDepthExceeded 1, "((x))", ⟨1, 2⟩⟩ := by
    decide +kernel
  have hparse : Arena.parse "((x))" ["x"] 2 = .ok ⟨#[⟨.param 0, ⟨2, 3⟩⟩], 1⟩ := by
    decide +kernel
  have hle : 1 ≤ 2 := by decide
  obtain ⟨-, hbeyond, -⟩ := parse_limit "((x))" ["x"] hle
  obtain ⟨-, -, haccepted⟩ := parse_limit "((x))" ["x"] (Nat.le_refl 2)
  have hnesting :
      Token.nesting (Scan.ofText "((x))".toList).tokens ≤ 7 := by decide +kernel
  exact ⟨hle, ⟨_, hexceeded, rfl, (hbeyond _ 1 hexceeded rfl).2⟩, _, hparse,
    (haccepted _ hparse 7).1.mpr hnesting⟩

end Arena

end Abacus
