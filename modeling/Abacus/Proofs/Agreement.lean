import Abacus.Command.Session
import Abacus.Proofs.Strategies

set_option autoImplicit false

/-!
# When the outcomes of the strategies agree

A compiled expression is evaluated in one of two forms, as it was read or as it was
simplified, and the program is compiled from the second.  For the right number of
arguments there are three cases: all strategies have the same value, all fail with a
division by zero, or only the arena as read fails, because simplifying has dropped the
division.  `Expression.evaluate_cases` says so, and what the library returns and the
command prints is read off from it.

Main statement: `Expression.strategies_agree`, which outcomes of the strategies agree, and
when the command finds that they do not.
-/

namespace Abacus

/-! ## The three cases -/

/-- The tree that the program of an expression is compiled from. -/
def Options.compiled (options : Options) (t : Tree Place) : Tree Place :=
  if options.optimize then t.simplify else t

namespace Expression

variable {source : String} {names : List String} {options : Options} {e : Expression}
  {args : List Int64}

/-- The forms of a compiled expression: the arena as read stores one tree, and the arena
that the program was compiled from stores another one, which has the values of the
first. -/
structure Forms (e : Expression) (source : String) (names : List String)
    (options : Options) (t u : Tree Place) : Prop where
  source_eq : e.source = source
  names_eq : e.names = names
  arena : e.arena.Stores t
  optimized : e.optimized.Stores u
  program : e.program = e.optimized.compile
  arenaCount : e.arena.paramCount = names.length
  optimizedCount : e.optimized.paramCount = names.length
  refines : t.Refines u
  /-- Without simplification both trees are the same. -/
  same : options.optimize = false → u = t

/-- A source that is read as a tree is compiled, and the forms are those of the tree. -/
theorem exists_forms_of_parse {p : Tree Span}
    (h : Tree.parse source names options.maxDepth = .ok p) :
    ∃ e, compile source names options = .ok e ∧
      e.Forms source names options (p.placed 0 p.descendants)
        (options.compiled (p.placed 0 p.descendants)) := by
  have hparse : Arena.parse source names options.maxDepth =
      .ok (Arena.ofTree p names.length) := Arena.parse_eq_ok_iff.mpr ⟨p, h, rfl⟩
  have hstores := Arena.stores_ofTree (Arena.params_of_parse h)
  rw [compile, hparse]
  refine ⟨_, rfl, ?_⟩
  cases hoptimize : options.optimize with
  | true =>
    simp only [Options.compiled, hoptimize, if_true]
    exact ⟨rfl, rfl, hstores, hstores.simplify, rfl, rfl, rfl, Tree.simplify_refines _,
      fun hnot => by cases hoptimize.symm.trans hnot⟩
  | false =>
    simp only [Options.compiled, hoptimize]
    exact ⟨rfl, rfl, hstores, hstores, rfl, rfl, rfl, Tree.Refines.refl _, fun _ => rfl⟩

theorem compile_of_parse_error {error : ParseError}
    (h : Tree.parse source names options.maxDepth = .error error) :
    compile source names options = .error (.ofParseError error) := by
  have hparse : Arena.parse source names options.maxDepth = .error error := by
    rw [Arena.parse, h]
    rfl
  rw [compile, hparse]

theorem exists_forms (h : compile source names options = .ok e) :
    ∃ t u, e.Forms source names options t u := by
  cases hparse : Tree.parse source names options.maxDepth with
  | error error =>
    rw [compile_of_parse_error hparse] at h
    cases h
  | ok p =>
    obtain ⟨e', he', hforms⟩ := exists_forms_of_parse hparse
    obtain rfl := Except.ok.inj (h.symm.trans he')
    exact ⟨_, _, hforms⟩

/-- The outcome of a strategy as a function of the trees that it evaluates. -/
theorem Forms.evaluate_eq {t u : Tree Place} (h : e.Forms source names options t u)
    (hnames : names.length ≤ UInt64.size) (hlength : args.length = names.length)
    (s : Strategy) :
    e.evaluate args s =
      match s with
      | .tree => (t.eval args).mapError fun place =>
        .divisionByZero (some place.span) none
      | .optimized => (u.eval args).mapError fun place =>
        .divisionByZero (some place.span) none
      | .bytecode =>
        (u.eval args).mapError fun place =>
          .divisionByZero none (some (u.offsetOf place)) := by
  cases s with
  | tree => exact h.arena.evaluate_eq (hlength.trans h.arenaCount.symm)
  | optimized => exact h.optimized.evaluate_eq (hlength.trans h.optimizedCount.symm)
  | bytecode =>
    have hbytecode : e.evaluate args .bytecode = e.optimized.compile.run args := by
      rw [← h.program]
      rfl
    rw [hbytecode]
    exact h.optimized.run_eq (hlength.trans h.optimizedCount.symm) (hlength ▸ hnames)

/-- The evaluation by a strategy ends with a division by zero. -/
def DividesByZero (e : Expression) (args : List Int64) (s : Strategy) : Prop :=
  ∃ span offset, e.evaluate args s = .error (.divisionByZero span offset)

/-- All strategies have one value, or all divide by zero, or only the strategy that walks
the arena as read does, and the other two have one value.  The last case needs the
simplifier. -/
theorem evaluate_cases (h : compile source names options = .ok e)
    (hnames : names.length ≤ UInt64.size) (hlength : args.length = names.length) :
    (∃ v, ∀ s, e.evaluate args s = .ok v) ∨
    (∀ s, e.DividesByZero args s) ∨
    (options.optimize = true ∧ e.DividesByZero args .tree ∧
      ∃ v, e.evaluate args .optimized = .ok v ∧ e.evaluate args .bytecode = .ok v) := by
  obtain ⟨t, u, hforms⟩ := exists_forms h
  have heval := hforms.evaluate_eq hnames hlength
  cases htree : t.eval args with
  | ok v =>
    have hvalue := hforms.refines args v htree
    refine Or.inl ⟨v, fun s => ?_⟩
    rw [heval s, htree, hvalue]
    cases s <;> rfl
  | error place =>
    have htreefails : e.DividesByZero args .tree :=
      ⟨_, _, (heval .tree).trans (by rw [htree]; rfl)⟩
    cases hvalue : u.eval args with
    | ok v =>
      refine Or.inr
        (Or.inr ⟨?_, htreefails, v, (heval .optimized).trans (by rw [hvalue]; rfl),
        (heval .bytecode).trans (by rw [hvalue]; rfl)⟩)
      by_contra hnot
      rw [hforms.same (eq_false_of_ne_true hnot), htree] at hvalue
      cases hvalue
    | error place' =>
      refine Or.inr (Or.inl fun s => ?_)
      cases s with
      | tree => exact htreefails
      | optimized => exact ⟨_, _, (heval .optimized).trans (by rw [hvalue]; rfl)⟩
      | bytecode => exact ⟨_, _, (heval .bytecode).trans (by rw [hvalue]; rfl)⟩

/-! ## What the library returns -/

/-- A strategy fails while the expression is evaluated, and names the source. -/
def FailsAtRunTime (e : Expression) (source : String) (args : List Int64)
    (s : Strategy) : Prop :=
  ∃ diagnostic, e.run args s = .error (.runtime diagnostic source)

theorem run_of_evaluate_ok {s : Strategy} {v : Int64}
    (hlength : args.length = e.names.length) (h : e.evaluate args s = .ok v) :
    e.run args s = .ok v := by
  rw [run, if_neg (not_not_intro hlength), h]
  rfl

theorem failsAtRunTime_of_dividesByZero {s : Strategy}
    (hlength : args.length = e.names.length) (h : e.DividesByZero args s) :
    e.FailsAtRunTime e.source args s := by
  obtain ⟨span, offset, h⟩ := h
  refine ⟨(ExecutionError.divisionByZero span offset).diagnostic, ?_⟩
  rw [run, if_neg (not_not_intro hlength), h]
  rfl

/-- How far the outcomes of the strategies agree. -/
structure Agreement (e : Expression) (source : String) (args : List Int64)
    (optimize : Bool) : Prop where
  /-- Every strategy has a value or fails at run time, with the text of the expression. -/
  total : ∀ s, (∃ v, e.run args s = .ok v) ∨ e.FailsAtRunTime source args s
  /-- The strategies that evaluate the compiled form agree. -/
  compiled : (∃ v, e.run args .optimized = .ok v ∧ e.run args .bytecode = .ok v) ∨
    (e.FailsAtRunTime source args .optimized ∧ e.FailsAtRunTime source args .bytecode)
  /-- A value of the arena as read is the value of all strategies. -/
  ofTree : ∀ v, e.run args .tree = .ok v → ∀ s, e.run args s = .ok v
  /-- Without simplification all strategies agree. -/
  unoptimized : optimize = false →
    (∃ v, ∀ s, e.run args s = .ok v) ∨ ∀ s, e.FailsAtRunTime source args s

theorem agreement (h : compile source names options = .ok e)
    (hnames : names.length ≤ UInt64.size) (hlength : args.length = names.length) :
    e.Agreement source args options.optimize := by
  obtain ⟨t, u, hforms⟩ := exists_forms h
  have hlength' : args.length = e.names.length := hforms.names_eq ▸ hlength
  have hfails {s : Strategy} (hs : e.DividesByZero args s) :
      e.FailsAtRunTime source args s :=
    hforms.source_eq ▸ failsAtRunTime_of_dividesByZero hlength' hs
  rcases evaluate_cases h hnames hlength with
    ⟨v, hv⟩ | hzero | ⟨hoptimize, htree, v, hopt, hbyte⟩
  · have hrun (s : Strategy) : e.run args s = .ok v := run_of_evaluate_ok hlength' (hv s)
    refine ⟨fun s => Or.inl ⟨v, hrun s⟩, Or.inl ⟨v, hrun _, hrun _⟩, fun w hw s => ?_,
      fun _ => Or.inl ⟨v, hrun⟩⟩
    rw [hrun s, ← hrun .tree, hw]
  · refine ⟨fun s => Or.inr (hfails (hzero s)),
      Or.inr ⟨hfails (hzero _), hfails (hzero _)⟩, fun w hw => ?_,
      fun _ => Or.inr fun s => hfails (hzero s)⟩
    obtain ⟨_, hrun⟩ := hfails (hzero .tree)
    cases hrun.symm.trans hw
  · have hrunopt := run_of_evaluate_ok hlength' hopt
    have hrunbyte := run_of_evaluate_ok hlength' hbyte
    refine ⟨fun s => ?_, Or.inl ⟨v, hrunopt, hrunbyte⟩, fun w hw => ?_,
      fun hnot => by cases hoptimize.symm.trans hnot⟩
    · cases s with
      | tree => exact Or.inr (hfails htree)
      | optimized => exact Or.inl ⟨v, hrunopt⟩
      | bytecode => exact Or.inl ⟨v, hrunbyte⟩
    · obtain ⟨_, hrun⟩ := hfails htree
      cases hrun.symm.trans hw

end Expression

/-! ## What the command prints -/

theorem agreedOutcome_of_agrees {source : String} {first : Strategy × EvaluationOutcome}
    {others : List (Strategy × EvaluationOutcome)}
    (h : ∀ other ∈ others, first.2.agrees other.2 = true) :
    agreedOutcome source first others = .ok first.2 := by
  have hnone : (others.find? fun other => !first.2.agrees other.2) = none := by
    rw [List.find?_eq_none]
    intro other hother
    simp [h other hother]
  rw [agreedOutcome, hnone]

theorem agreedOutcome_of_disagrees (source : String)
    (others : List (Strategy × EvaluationOutcome))
    {first other : Strategy × EvaluationOutcome} (h : first.2.agrees other.2 = false) :
    ∃ details,
      agreedOutcome source first (other :: others) = .error (.mismatch source details) := by
  have hfind :
      ((other :: others).find? fun other => !first.2.agrees other.2) = some other := by
    simp [h]
  rw [agreedOutcome, hfind]
  exact ⟨_, rfl⟩

namespace Settings

variable {s : Settings} {input : String} {e : Expression}

theorem length_arguments (s : Settings) : s.arguments.length = s.names.length := by
  simp [arguments, names]

theorem interpret_of_rejected {failure : Failure}
    (h : Expression.compile input s.names s.options = .error failure) :
    s.interpret input = ⟨"", [failure], .ok false⟩ := by
  rw [interpret, h]

section

variable (hall : s.selection = .all)
  (h : Expression.compile input s.names s.options = .ok e)

include hall h

theorem interpret_eq :
    s.interpret input =
      match agreedOutcome input (s.outcome e .tree)
        [s.outcome e .optimized, s.outcome e .bytecode] with
      | .error error => ⟨s.preamble e, [], .error error⟩
      | .ok (.ok value) =>
        ⟨s.preamble e ++ Text.signedDecimal value ++ "\n", [], .ok true⟩
      | .ok (.error failure) => ⟨s.preamble e, [failure], .ok false⟩ := by
  rw [interpret, h, hall]
  rfl

/-- A value that all strategies have is printed. -/
theorem interpret_of_values {v : Int64}
    (hrun : ∀ strategy, e.run s.arguments strategy = .ok v) :
    s.interpret input = ⟨s.preamble e ++ Text.signedDecimal v ++ "\n", [], .ok true⟩ := by
  rw [interpret_eq hall h, agreedOutcome_of_agrees]
  · simp only [outcome, hrun]
  · simp [outcome, hrun, EvaluationOutcome.agrees]

/-- If all strategies fail at run time, the failure of the first one is reported. -/
theorem interpret_of_failures
    (hrun : ∀ strategy, e.FailsAtRunTime input s.arguments strategy) :
    ∃ failure, e.run s.arguments .tree = .error failure ∧
      s.interpret input = ⟨s.preamble e, [failure], .ok false⟩ := by
  obtain ⟨d, htree⟩ := hrun .tree
  obtain ⟨d', hoptimized⟩ := hrun .optimized
  obtain ⟨d'', hbytecode⟩ := hrun .bytecode
  refine ⟨_, htree, ?_⟩
  rw [interpret_eq hall h, agreedOutcome_of_agrees]
  · simp only [outcome, htree]
  · simp [outcome, htree, hoptimized, hbytecode, EvaluationOutcome.agrees,
      Failure.sameKind]

/-- If the first strategy fails and the second one has a value, the command finds a
mismatch. -/
theorem interpret_of_mismatch {v : Int64}
    (htree : e.FailsAtRunTime input s.arguments .tree)
    (hoptimized : e.run s.arguments .optimized = .ok v) :
    ∃ details, s.interpret input = ⟨s.preamble e, [],
      .error (.mismatch input details)⟩ := by
  obtain ⟨d, htree⟩ := htree
  have hdisagrees :
      EvaluationOutcome.agrees (s.outcome e .tree).2 (s.outcome e .optimized).2 =
      false := by
    simp [outcome, htree, hoptimized, EvaluationOutcome.agrees]
  obtain ⟨details, hdetails⟩ :=
    agreedOutcome_of_disagrees input [s.outcome e .bytecode] hdisagrees
  refine ⟨details, ?_⟩
  rw [interpret_eq hall h, hdetails]

end

theorem not_mismatch_of_result {printed : Bool}
    (h : (s.interpret input).result = .ok printed) :
    ¬ ∃ details, (s.interpret input).result = .error (.mismatch input details) := by
  rintro ⟨_, hmismatch⟩
  cases h.symm.trans hmismatch

/-- What the command makes of an expression if it compares all strategies. -/
structure CrossCheck (s : Settings) (input : String) : Prop where
  /-- The command finds a mismatch exactly if the expression is simplified, the arena as
  read divides by zero and the simplified one has a value. -/
  mismatch_iff :
    (∃ details, (s.interpret input).result = .error (.mismatch input details)) ↔
    ∃ e span offset v, Expression.compile input s.names s.options = .ok e ∧
      s.noOptimize = false ∧
      e.arena.evaluate s.arguments = .error (.divisionByZero span offset) ∧
      e.optimized.evaluate s.arguments = .ok v
  /-- Otherwise it prints the value that all strategies have, or reports why the
  expression was rejected or why all strategies fail. -/
  otherwise : (∃ details, (s.interpret input).result = .error (.mismatch input details)) ∨
    (∃ e v, Expression.compile input s.names s.options = .ok e ∧
      (∀ strategy, e.run s.arguments strategy = .ok v) ∧
      s.interpret input = ⟨s.preamble e ++ Text.signedDecimal v ++ "\n", [], .ok true⟩) ∨
    (∃ failure, Expression.compile input s.names s.options = .error failure ∧
      s.interpret input = ⟨"", [failure], .ok false⟩) ∨
    ∃ e failure, Expression.compile input s.names s.options = .ok e ∧
      (∀ strategy, e.FailsAtRunTime input s.arguments strategy) ∧
      e.run s.arguments .tree = .error failure ∧
      s.interpret input = ⟨s.preamble e, [failure], .ok false⟩

theorem crossCheck (hall : s.selection = .all)
    (hbindings : s.bindings.length ≤ UInt64.size) (input : String) :
    s.CrossCheck input := by
  have hnames : s.names.length ≤ UInt64.size := by simpa [names] using hbindings
  cases hcompile : Expression.compile input s.names s.options with
  | error failure =>
    have hinterpret := interpret_of_rejected hcompile
    refine ⟨iff_of_false (not_mismatch_of_result (by rw [hinterpret])) ?_,
      Or.inr (Or.inr (Or.inl ⟨failure, hcompile, hinterpret⟩))⟩
    rintro ⟨e, span, offset, v, he, -⟩
    cases hcompile.symm.trans he
  | ok e =>
    obtain ⟨t, u, hforms⟩ := Expression.exists_forms hcompile
    have hlength : s.arguments.length = e.names.length := by
      rw [hforms.names_eq, length_arguments]
    have hfails {strategy : Strategy} (hzero : e.DividesByZero s.arguments strategy) :
        e.FailsAtRunTime input s.arguments strategy :=
      hforms.source_eq ▸ Expression.failsAtRunTime_of_dividesByZero hlength hzero
    rcases Expression.evaluate_cases hcompile hnames s.length_arguments with
      ⟨v, hv⟩ | hzero | ⟨hoptimize, htree, v, hopt, hbyte⟩
    · have hrun (strategy : Strategy) : e.run s.arguments strategy = .ok v :=
        Expression.run_of_evaluate_ok hlength (hv strategy)
      have hinterpret := interpret_of_values hall hcompile hrun
      refine ⟨iff_of_false (not_mismatch_of_result (by rw [hinterpret])) ?_,
        Or.inr (Or.inl ⟨e, v, hcompile, hrun, hinterpret⟩)⟩
      rintro ⟨e', span, offset, w, he', -, hzero, -⟩
      obtain rfl := Except.ok.inj (hcompile.symm.trans he')
      cases (hv .tree).symm.trans hzero
    · have hrun (strategy : Strategy) := hfails (hzero strategy)
      obtain ⟨failure, htree, hinterpret⟩ := interpret_of_failures hall hcompile hrun
      refine ⟨iff_of_false (not_mismatch_of_result (by rw [hinterpret])) ?_,
        Or.inr (Or.inr (Or.inr ⟨e, failure, hcompile, hrun, htree, hinterpret⟩))⟩
      rintro ⟨e', span, offset, w, he', -, -, hvalue⟩
      obtain rfl := Except.ok.inj (hcompile.symm.trans he')
      obtain ⟨_, _, hoptimized⟩ := hzero .optimized
      cases hoptimized.symm.trans hvalue
    · obtain ⟨details, hinterpret⟩ := interpret_of_mismatch hall hcompile (hfails htree)
        (Expression.run_of_evaluate_ok hlength hopt)
      have hmismatch :
          ∃ details, (s.interpret input).result = .error (.mismatch input details) :=
        ⟨details, by rw [hinterpret]⟩
      obtain ⟨span, offset, hzero⟩ := htree
      have hnoOptimize : s.noOptimize = false := by simpa [options] using hoptimize
      exact ⟨iff_of_true hmismatch ⟨e, span, offset, v, hcompile, hnoOptimize,
        hzero, hopt⟩, Or.inl hmismatch⟩

end Settings

/-! ## Both together -/

/-- However an expression is compiled, its strategies agree as far as dropped divisions
let them, and the command that compares all strategies finds a mismatch just where they do
not.  The positions of the parameters have to fit in a word, as those of any list in
memory do. -/
theorem Expression.strategies_agree :
    (∀ {source : String} {names : List String} {options : Options} {e : Expression}
      {args : List Int64}, compile source names options = .ok e →
      names.length ≤ UInt64.size →
        args.length = names.length → e.Agreement source args options.optimize) ∧
    ∀ {s : Settings}, s.selection = .all → s.bindings.length ≤ UInt64.size →
      ∀ input, s.CrossCheck input :=
  ⟨agreement, Settings.crossCheck⟩

/-- Simplifying `0/x` drops the division, and the command finds that out for `0`. -/
theorem Expression.strategies_agree_dropped_division :
    ∃ e, compile "0/x" ["x"] ⟨true, 1⟩ = .ok e ∧ e.Agreement "0/x" [0] true ∧
      ∃ details, (Settings.interpret ⟨[⟨"x", 0⟩], .all, false, false, false, 1, none⟩
        "0/x").result = .error (.mismatch "0/x" details) := by
  obtain ⟨a, hparse, hzero, htree⟩ : ∃ a, Arena.parse "0/x" ["x"] 1 = .ok a ∧
      a.evaluate [0] = .error (.divisionByZero (some ⟨0, 3⟩) none) ∧
      a.tree? =
        some (.binary ⟨2, ⟨0, 3⟩⟩ .div (.literal ⟨0, ⟨0, 1⟩⟩ 0) (.param ⟨1, ⟨2, 3⟩⟩ 0)) := by
    have hparse : Arena.parse "0/x" ["x"] 1 =
        .ok ⟨#[⟨.literal 0, ⟨0, 1⟩⟩, ⟨.param 0, ⟨2, 3⟩⟩, ⟨.binary .div 0 1, ⟨0, 3⟩⟩],
          1⟩ := by
      decide +kernel
    exact ⟨_, hparse, by decide +kernel, by decide +kernel⟩
  obtain ⟨t, ht⟩ := Arena.stores_of_parse hparse
  obtain rfl := Option.some.inj (ht.tree?_eq.symm.trans htree)
  have hvalue : a.simplify.evaluate [0] = .ok 0 := by
    refine ht.simplify.evaluate_of_eval_ok ?_ ?_
    · rw [Arena.paramCount_simplify, Arena.paramCount_of_parse hparse]
      rfl
    · simp only [Tree.simplify]
      rw [Simplify.settle_of_again rfl, Simplify.settle_of_done rfl]
      rfl
  have hcompile : compile "0/x" ["x"] ⟨true, 1⟩ =
      .ok ⟨"0/x", ["x"], a, a.simplify, a.simplify.compile⟩ := by
    rw [compile, hparse]
    rfl
  obtain ⟨hagreement, hcrossCheck⟩ := strategies_agree
  exact ⟨_, hcompile, hagreement hcompile (by decide) rfl,
    (hcrossCheck rfl (by decide) _).mismatch_iff.mpr ⟨_, _, _, _, hcompile, rfl, hzero,
      hvalue⟩⟩

end Abacus
