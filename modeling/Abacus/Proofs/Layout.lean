import Abacus.Proofs.Renaming
import Abacus.Proofs.Strategies

set_option autoImplicit false

/-!
# Layout has no meaning

Two sources that are scanned into tokens of the same kinds differ in the layout between
the tokens, and so in the offsets of the tokens.  Moving all offsets to zero makes the
scans equal, and the reader goes along with such a move.  So both are accepted, with
arenas that differ in nothing but spans, or both are rejected for the same reason.

Main statements:

* `Parse.ofScan_alike`: the reader on tokens of the same kinds.
* `Arena.parse_alike`: sources whose tokens are of the same kinds.
-/

namespace Abacus

/-- Forgets an offset. -/
def toZero (_ : Nat) : Nat := 0

theorem monotone_toZero : Monotone toZero := monotone_const

/-- The causes are the same, wherever the parenthesis of an unclosed group stands. -/
def ParseError.Cause.SameKind (cause cause' : Cause) : Prop :=
  cause.move toZero = cause'.move toZero

/-- The cause of the violation that a scan ends with, if it does not reach the end of the
text. -/
def Scan.endCause? (scan : Scan) : Option ParseError.Cause :=
  match scan.ending with
  | .ok _ => none
  | .error v => some v.cause

/-- The arenas are the same slot by slot, but for the spans, and have the same values. -/
structure Arena.SameNodes (a a' : Arena) : Prop where
  paramCount : a.paramCount = a'.paramCount
  kinds : a.nodes.map Node.kind = a'.nodes.map Node.kind
  values : ∀ args v, a.evaluate args = .ok v ↔ a'.evaluate args = .ok v

theorem ParseError.Cause.SameKind.code_eq {cause cause' : Cause}
    (h : cause.SameKind cause') :
    cause.code = cause'.code := by
  have hcode (c : Cause) : (c.move toZero).code = c.code := by cases c <;> rfl
  rw [← hcode cause, h, hcode]

/-! ## The reader -/

namespace Parse

variable {names : List String} {maxDepth : Nat}

/-- Outcomes that are relabelled alike are of one sort. -/
theorem cases_of_relabelled_eq {α β : Type} {o : Nat → Nat} {g : α → β}
    {r r' : Except Violation α} (h : relabelled o g r = relabelled o g r') :
    (∃ a a', r = .ok a ∧ r' = .ok a' ∧ g a = g a') ∨
      ∃ v v', r = .error v ∧ r' = .error v' ∧ v.move o = v'.move o := by
  cases r with
  | ok a =>
    cases r' with
    | ok a' => exact Or.inl ⟨a, a', rfl, rfl, Except.ok.inj h⟩
    | error v' => cases h
  | error v =>
    cases r' with
    | ok a' => cases h
    | error v' => exact Or.inr ⟨v, v', rfl, rfl, Except.error.inj h⟩

theorem renames_id (names : List String) (token : Token) : Renames id names names token :=
  fun _ _ => Option.map_id_apply.symm

/-- On tokens of the same kinds the reader gives trees that differ in spans only, or
violations of the same kind.  Where the scans end with violations of their own, the reader
gives those. -/
theorem ofScan_alike {scan scan' : Scan}
    (htokens : scan.tokens.map Token.kind = scan'.tokens.map Token.kind)
    (hending : scan.endCause?.map ParseError.Cause.code =
      scan'.endCause?.map ParseError.Cause.code) :
    (∃ t t', ofScan names maxDepth scan = .ok t ∧ ofScan names maxDepth scan' = .ok t' ∧
      t.relabel id toZero = t'.relabel id toZero) ∨
    ∃ v v', ofScan names maxDepth scan = .error v ∧
      ofScan names maxDepth scan' = .error v' ∧
      v.cause.code = v'.cause.code ∧
      (scan.endCause? = scan'.endCause? → v.cause.SameKind v'.cause) := by
  have ho := monotone_toZero
  have hmove (tokens : List Token) : tokens.map (Token.move toZero) =
      (tokens.map Token.kind).map fun kind => ⟨kind, .nowhere⟩ := by
    rw [List.map_map]
    rfl
  have hrun : relabelled toZero (State.relabel id toZero)
      (scan.tokens.foldlM (step names maxDepth) start) =
        relabelled toZero (State.relabel id toZero)
          (scan'.tokens.foldlM (step names maxDepth) start) := by
    rw [← foldlM_step_relabel ho fun t _ => renames_id names t, hmove, htokens, ← hmove,
      foldlM_step_relabel ho fun t _ => renames_id names t]
  unfold ofScan Scan.endCause? at *
  -- How the scans end matters only where both runs have taken all tokens.
  rcases cases_of_relabelled_eq hrun with
    ⟨state, state', hstate, hstate', heq⟩ | ⟨v, v', hv, hv', heq⟩
  · rw [hstate, hstate']
    cases hend : scan.ending with
    | ok stop =>
      cases hend' : scan'.ending with
      | ok stop' =>
        have hfinish : relabelled toZero (Tree.relabel id toZero) (finish state stop) =
            relabelled toZero (Tree.relabel id toZero) (finish state' stop') :=
          calc relabelled toZero (Tree.relabel id toZero) (finish state stop)
            _ = finish (state.relabel id toZero) 0 := (finish_relabel ho state stop).symm
            _ = finish (state'.relabel id toZero) 0 := by rw [heq]
            _ = relabelled toZero (Tree.relabel id toZero) (finish state' stop') :=
              finish_relabel ho state' stop'
        rcases cases_of_relabelled_eq hfinish with htrees | ⟨v, v', hv, hv', heq⟩
        · exact Or.inl htrees
        · have hkind : v.cause.SameKind v'.cause := congrArg Violation.cause heq
          exact Or.inr ⟨v, v', hv, hv', hkind.code_eq, fun _ => hkind⟩
      | error v' =>
        rw [hend, hend'] at hending
        cases hending
    | error v =>
      cases hend' : scan'.ending with
      | ok stop' =>
        rw [hend, hend'] at hending
        cases hending
      | error v' =>
        rw [hend, hend'] at hending
        refine Or.inr ⟨v, v', rfl, rfl, Option.some.inj hending, fun hcause => ?_⟩
        exact congrArg _ (Option.some.inj hcause)
  · rw [hv, hv']
    have hkind : v.cause.SameKind v'.cause := congrArg Violation.cause heq
    exact Or.inr ⟨v, v', rfl, rfl, hkind.code_eq, fun _ => hkind⟩

end Parse

/-! ## Trees and arenas -/

namespace Tree

theorem rename_id {α : Type} (t : Tree α) : t.rename id = t := by
  induction t with
  | literal => rfl
  | param => rfl
  | negate tag _ ih => exact congrArg (negate tag) ih
  | binary tag op _ _ ihl ihr => exact congrArg₂ (binary tag op) ihl ihr

/-- Trees that become the same when they are relabelled have the same values. -/
theorem eval_eq_ok_iff_of_relabel_eq {o : Nat → Nat} {t u : Tree Span}
    (h : t.relabel id o = u.relabel id o) (args : List Int64) (v : Int64) :
    t.eval args = .ok v ↔ u.eval args = .ok v := by
  have heval :
      (t.eval args).mapError (Span.move o) = (u.eval args).mapError (Span.move o) := by
    rw [← eval_map, ← eval_map, ← rename_id t, ← rename_id u]
    exact congrArg (eval args) h
  cases ht : t.eval args with
  | ok a =>
    cases hu : u.eval args with
    | ok b =>
      rw [ht, hu] at heval
      obtain rfl : a = b := Except.ok.inj heval
      exact Iff.rfl
    | error =>
      rw [ht, hu] at heval
      cases heval
  | error =>
    cases hu : u.eval args with
    | ok b =>
      rw [ht, hu] at heval
      cases heval
    | error => simp

end Tree

namespace Arena

/-- The node with its span moved. -/
def Node.move (o : Nat → Nat) (node : Node) : Node :=
    { node with span := node.span.move o }

theorem plant_move (o : Nat → Nat) (nodes : Array Node) (t : Tree Span) :
    plant (nodes.map (Node.move o)) (t.map (Span.move o)) =
      ((plant nodes t).1.map (Node.move o), (plant nodes t).2.move o) := by
  induction t generalizing nodes with
  | literal => rfl
  | param => rfl
  | negate span operand ih => simp [plant, Tree.map, ih, Node.move]
  | binary span op left right ihl ihr => simp [plant, Tree.map, ihl, ihr, Node.move]

/-- Trees that become the same when they are relabelled have arenas that differ in spans
only. -/
theorem kinds_ofTree_of_relabel_eq {o : Nat → Nat} {t u : Tree Span}
    (h : t.relabel id o = u.relabel id o) (paramCount : Nat) :
    (ofTree t paramCount).nodes.map Node.kind =
      (ofTree u paramCount).nodes.map Node.kind := by
  have hkinds (w : Tree Span) : (ofTree w paramCount).nodes.map Node.kind =
      (ofTree (w.relabel id o) paramCount).nodes.map Node.kind := by
    have hplant := plant_move o #[] w
    rw [Array.map_empty] at hplant
    rw [Tree.relabel, Tree.rename_id]
    simp [ofTree, hplant, Node.move, Function.comp_def]
  rw [hkinds t, h, hkinds u]

variable {source source' : String} {names : List String} {maxDepth : Nat}

/-- An arena made from a tree has a value if it gets as many arguments as it has
parameters. -/
theorem evaluate_ofTree_eq_ok_iff {t : Tree Span} {paramCount : Nat}
    (hparams : ∀ index ∈ t.params, index < paramCount) {args : List Int64} {v : Int64} :
    (ofTree t paramCount).evaluate args = .ok v ↔ args.length = paramCount ∧
      t.eval args = .ok v := by
  have heval := Tree.eval_map Place.span args (t.placed 0 t.descendants)
  rw [Tree.map_span_placed] at heval
  have hcount : (ofTree t paramCount).paramCount = paramCount := rfl
  rw [(stores_ofTree hparams).evaluate_eq_ok_iff, heval, hcount]
  cases (t.placed 0 t.descendants).eval args <;> simp [Except.mapError]

/-- Sources whose tokens are of the same kinds, and whose scans end both at the end or
both with violations of one code, are both accepted, with arenas that differ in spans
only, or both rejected with the same code.  The causes of rejection are the same in all
but spans, if the violations of the scans are. -/
theorem parse_alike (names : List String) (maxDepth : Nat)
    (htokens : (Scan.ofText source.toList).tokens.map Token.kind =
      (Scan.ofText source'.toList).tokens.map Token.kind)
    (hending : (Scan.ofText source.toList).endCause?.map ParseError.Cause.code =
      (Scan.ofText source'.toList).endCause?.map ParseError.Cause.code) :
    (∃ a a', Arena.parse source names maxDepth = .ok a ∧
      Arena.parse source' names maxDepth = .ok a' ∧ a.SameNodes a') ∨
    ∃ e e', Arena.parse source names maxDepth = .error e ∧
      Arena.parse source' names maxDepth = .error e' ∧ e.cause.code = e'.cause.code ∧
      ((Scan.ofText source.toList).endCause? = (Scan.ofText source'.toList).endCause? →
        e.cause.SameKind e'.cause) := by
  cases hfault : Scope.fault? names with
  | some cause =>
    have herror (source : String) :
        Arena.parse source names maxDepth = .error ⟨cause, source, .nowhere⟩ :=
      parse_eq_error_iff.mpr (Tree.parse_eq_error_iff.mpr (Or.inl ⟨cause, hfault, rfl⟩))
    exact Or.inr ⟨_, _, herror source, herror source', rfl, fun _ => rfl⟩
  | none =>
    rcases Parse.ofScan_alike htokens hending with
      ⟨t, t', ht, ht', heq⟩ | ⟨v, v', hv, hv', hcode, hkind⟩
    · have hvalid := Scope.fault?_eq_none_iff.mp hfault
      have hparse := Tree.parse_eq_ok_iff.mpr ⟨hvalid, ht⟩
      have hparse' := Tree.parse_eq_ok_iff.mpr ⟨hvalid, ht'⟩
      refine Or.inl ⟨_, _, parse_eq_ok_iff.mpr ⟨t, hparse, rfl⟩,
        parse_eq_ok_iff.mpr ⟨t', hparse', rfl⟩, rfl, kinds_ofTree_of_relabel_eq heq _,
        fun args v => ?_⟩
      rw [evaluate_ofTree_eq_ok_iff (params_of_parse hparse),
        evaluate_ofTree_eq_ok_iff (params_of_parse hparse'),
        Tree.eval_eq_ok_iff_of_relabel_eq heq]
    · have herror {source : String} {v : Violation}
          (hv : Parse.ofScan names maxDepth (Scan.ofText source.toList) = .error v) :
          Arena.parse source names maxDepth = .error (v.inSource source) :=
        parse_eq_error_iff.mpr (Tree.parse_eq_error_iff.mpr (Or.inr ⟨hfault, v, hv, rfl⟩))
      exact Or.inr ⟨_, _, herror hv, herror hv', hcode, hkind⟩

/-- A comment and blanks inside `2*(x-1)` change nothing but spans.  Inside `(x` they do
not change why it is rejected, although the parenthesis stands elsewhere. -/
theorem parse_alike_comment :
    (Scan.ofText "2*(x-1)".toList).tokens.map Token.kind =
      (Scan.ofText "2 * # é\n ( x-1 )".toList).tokens.map Token.kind ∧
    (Scan.ofText "2*(x-1)".toList).endCause?.map ParseError.Cause.code =
      (Scan.ofText "2 * # é\n ( x-1 )".toList).endCause?.map ParseError.Cause.code ∧
    (∃ a a', Arena.parse "2*(x-1)" ["x"] 1 = .ok a ∧
      Arena.parse "2 * # é\n ( x-1 )" ["x"] 1 = .ok a' ∧ a.SameNodes a') ∧
    ∃ e e', Arena.parse "(x" ["x"] 1 = .error e ∧
      Arena.parse "# é\n ( x" ["x"] 1 = .error e' ∧
      e.cause.SameKind e'.cause := by
  have htokens : (Scan.ofText "2*(x-1)".toList).tokens.map Token.kind =
      (Scan.ofText "2 * # é\n ( x-1 )".toList).tokens.map Token.kind := by
    decide +kernel
  have hending : (Scan.ofText "2*(x-1)".toList).endCause?.map ParseError.Cause.code =
      (Scan.ofText "2 * # é\n ( x-1 )".toList).endCause?.map ParseError.Cause.code := by
    decide +kernel
  have hparse : Arena.parse "2*(x-1)" ["x"] 1 =
      .ok ⟨#[⟨.param 0, ⟨3, 4⟩⟩, ⟨.literal 1, ⟨5, 6⟩⟩, ⟨.literal 2, ⟨0, 1⟩⟩,
        ⟨.binary .sub 0 1, ⟨3, 6⟩⟩, ⟨.binary .mul 2 3, ⟨0, 6⟩⟩], 1⟩ := by
    decide +kernel
  have hunclosed : Arena.parse "(x" ["x"] 1 =
      .error ⟨.expectedCloseParen ⟨0, 1⟩ "end of input", "(x", ⟨0, 2⟩⟩ := by
    decide +kernel
  have htokens' : (Scan.ofText "(x".toList).tokens.map Token.kind =
      (Scan.ofText "# é\n ( x".toList).tokens.map Token.kind := by
    decide +kernel
  have hending' :
      (Scan.ofText "(x".toList).endCause? =
        (Scan.ofText "# é\n ( x".toList).endCause? := by
    decide +kernel
  refine ⟨htokens, hending, ?_, ?_⟩
  · rcases parse_alike ["x"] 1 htokens hending with haccepted | ⟨e, -, he, -⟩
    · exact haccepted
    · rw [hparse] at he
      cases he
  · rcases parse_alike ["x"] 1 htokens' (congrArg _ hending') with
      ⟨a, -, ha, -⟩ | hrejected
    · rw [hunclosed] at ha
      cases ha
    · obtain ⟨e, e', he, he', -, hkind⟩ := hrejected
      exact ⟨e, e', he, he', hkind hending'⟩

end Arena

end Abacus
