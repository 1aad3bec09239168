import Abacus.Expression
import Abacus.Proofs.Folding
import Abacus.Proofs.Planting
import Abacus.Proofs.Traversal

set_option autoImplicit false

/-!
# The language that is accepted, and its meaning

Scanning, reading and planting in one: which sources are accepted against a list of
parameter names, and what the evaluation of an accepted source comes to.  Both are said in
terms of the phrases that spell the source.

Main statements:

* `Arena.exists_parse_iff`: exactly the admissible phrases are accepted.
* `Arena.evaluate_eq_denote`: an accepted source evaluates to the value of its phrase.
-/

namespace Abacus

/-! ## Parsing as reading a phrase -/

namespace Parse

variable {names : List String} {maxDepth : Nat} {t : Tree Span}

/-- Reading succeeds only where scanning has reached the end. -/
theorem ending_of_ofScan {scan : Scan} (h : ofScan names maxDepth scan = .ok t) :
    ∃ stop, scan.ending = .ok stop := by
  obtain ⟨state, -, h⟩ := bind_eq_ok_iff.mp h
  obtain ⟨stop, hstop, -⟩ := bind_eq_ok_iff.mp h
  exact ⟨stop, hstop⟩

end Parse

namespace Phrase

/-- The scan of a source that a phrase spells. -/
theorem Spells.ofText_eq {p : Phrase .sum} {source : String} (h : p.Spells source) :
    ∃ stop, Scan.ofText source.toList = Scan.ofLexemes stop p.lexemes := by
  obtain ⟨stop, hstop⟩ := h
  exact ⟨stop, Scan.scanFrom_of_spelled hstop⟩

end Phrase

namespace Tree

variable {source : String} {names : List String} {maxDepth : Nat} {t : Tree Span}

theorem parse_eq_ok_iff :
    Tree.parse source names maxDepth = .ok t ↔
      Scope.Valid names ∧
        Parse.ofScan names maxDepth (Scan.ofText source.toList) = .ok t := by
  rw [parse]
  cases hfault : Scope.fault? names with
  | some cause =>
    have hinvalid : ¬ Scope.Valid names := by
      intro hvalid
      rw [Scope.fault?_eq_none_iff.mpr hvalid] at hfault
      cases hfault
    constructor
    · intro h
      cases h
    · intro h
      exact absurd h.1 hinvalid
  | none =>
    rw [and_iff_right (Scope.fault?_eq_none_iff.mp hfault)]
    dsimp only
    cases Parse.ofScan names maxDepth (Scan.ofText source.toList) with
    | error v =>
      constructor
      · intro h
        cases h
      · intro h
        cases h
    | ok u =>
      constructor
      · intro h
        exact congrArg _ (Except.ok.inj h)
      · intro h
        exact congrArg _ (Except.ok.inj h)

/-- A source is rejected for a fault of the names, or for a violation that the reader
finds. -/
theorem parse_eq_error_iff {e : ParseError} :
    Tree.parse source names maxDepth = .error e ↔
      (∃ cause, Scope.fault? names = some cause ∧ e = ⟨cause, source, .nowhere⟩) ∨
        Scope.fault? names = none ∧ ∃ v : Violation,
          Parse.ofScan names maxDepth (Scan.ofText source.toList) = .error v ∧
            e = v.inSource source := by
  rw [parse]
  cases Scope.fault? names with
  | some cause =>
    constructor
    · intro h
      exact Or.inl ⟨cause, rfl, (Except.error.inj h).symm⟩
    · rintro (⟨cause', hcause, rfl⟩ | ⟨hnone, -⟩)
      · obtain rfl := Option.some.inj hcause
        rfl
      · cases hnone
  | none =>
    dsimp only
    cases Parse.ofScan names maxDepth (Scan.ofText source.toList) with
    | error v =>
      constructor
      · intro h
        exact Or.inr ⟨rfl, v, rfl, (Except.error.inj h).symm⟩
      · rintro (⟨cause, hcause, -⟩ | ⟨-, w, hw, rfl⟩)
        · cases hcause
        · obtain rfl := Except.error.inj hw
          rfl
    | ok t =>
      constructor
      · intro h
        cases h
      · rintro (⟨cause, hcause, -⟩ | ⟨-, w, hw, -⟩)
        · cases hcause
        · cases hw

/-- Every phrase that spells an accepted source is read as the tree of the source. -/
theorem read_of_parse {p : Phrase .sum} (h : Tree.parse source names maxDepth = .ok t)
    (hspells : p.Spells source) :
    (∀ n ∈ p.literals, (n : Int) ≤ Int64.maxValue.toInt) ∧
      p.read names maxDepth 0 = .ok t := by
  obtain ⟨-, hscan⟩ := parse_eq_ok_iff.mp h
  obtain ⟨stop, hstop⟩ := hspells.ofText_eq
  rw [hstop] at hscan
  obtain ⟨stop', hending⟩ := Parse.ending_of_ofScan hscan
  have hfits := Scan.fits_of_ofLexemes hending
  rw [Scan.ofLexemes_of_fits hfits, p.ofScan_lexemes] at hscan
  exact ⟨p.fits_lexemes_iff.mp hfits, hscan⟩

/-- An accepted source is spelled by a phrase. -/
theorem exists_spells_of_parse (h : Tree.parse source names maxDepth = .ok t) :
    ∃ p : Phrase .sum, p.Spells source := by
  obtain ⟨-, hscan⟩ := parse_eq_ok_iff.mp h
  obtain ⟨stop, hending⟩ := Parse.ending_of_ofScan hscan
  obtain ⟨lexemes, hlexemes⟩ := Scan.spelled_of_scanFrom hending
  have hofText : Scan.ofText source.toList = Scan.ofLexemes stop lexemes :=
    Scan.scanFrom_of_spelled hlexemes
  rw [hofText] at hscan hending
  rw [Scan.ofLexemes_of_fits (Scan.fits_of_ofLexemes hending)] at hscan
  obtain ⟨p, rfl⟩ := Parse.exists_phrase hscan
  exact ⟨p, stop, hlexemes⟩

/-- A source that a phrase spells is parsed by reading the phrase. -/
theorem parse_of_read {p : Phrase .sum} (hnames : Scope.Valid names)
    (hspells : p.Spells source)
    (hliterals : ∀ n ∈ p.literals, (n : Int) ≤ Int64.maxValue.toInt)
    (hread : p.read names maxDepth 0 = .ok t) :
    Tree.parse source names maxDepth = .ok t := by
  refine parse_eq_ok_iff.mpr ⟨hnames, ?_⟩
  obtain ⟨stop, hstop⟩ := hspells.ofText_eq
  rw [hstop, Scan.ofLexemes_of_fits (p.fits_lexemes_iff.mpr hliterals),
    p.ofScan_lexemes, hread]

end Tree

namespace Arena

variable {source : String} {names : List String} {maxDepth : Nat} {a : Arena}

theorem parse_eq_ok_iff :
    Arena.parse source names maxDepth = .ok a ↔
      ∃ t, Tree.parse source names maxDepth = .ok t ∧ ofTree t names.length = a := by
  rw [parse]
  cases Tree.parse source names maxDepth with
  | error e =>
    constructor
    · intro h
      cases h
    · rintro ⟨t, ht, -⟩
      cases ht
  | ok t =>
    constructor
    · intro h
      exact ⟨t, rfl, Except.ok.inj h⟩
    · rintro ⟨u, hu, rfl⟩
      obtain rfl := Except.ok.inj hu
      rfl

theorem parse_eq_error_iff {e : ParseError} :
    Arena.parse source names maxDepth = .error e ↔
      Tree.parse source names maxDepth = .error e := by
  rw [parse]
  cases Tree.parse source names maxDepth with
  | error e' =>
    constructor
    · intro h
      exact congrArg _ (Except.error.inj h)
    · intro h
      exact congrArg _ (Except.error.inj h)
  | ok t =>
    constructor
    · intro h
      cases h
    · intro h
      cases h

theorem paramCount_of_parse (h : Arena.parse source names maxDepth = .ok a) :
    a.paramCount = names.length := by
  obtain ⟨t, -, rfl⟩ := parse_eq_ok_iff.mp h
  rfl

/-- The tree of an accepted source has no parameters but those that are named. -/
theorem params_of_parse {t : Tree Span} (h : Tree.parse source names maxDepth = .ok t) :
    ∀ index ∈ t.params, index < names.length := by
  obtain ⟨p, hp⟩ := Tree.exists_spells_of_parse h
  obtain ⟨-, hread⟩ := Tree.read_of_parse h hp
  exact (Phrase.reads_of_read hread).params

/-- The arena of an accepted source stores a tree. -/
theorem stores_of_parse (h : Arena.parse source names maxDepth = .ok a) :
    ∃ t : Tree Place, a.Stores t := by
  obtain ⟨t, ht, rfl⟩ := parse_eq_ok_iff.mp h
  exact ⟨_, stores_ofTree (params_of_parse ht)⟩

/-! ## The accepted language -/

/-- Against valid names, a source is accepted exactly if it is spelled by an admissible
phrase whose literals fit in 64 bits. -/
theorem exists_parse_iff (hnames : Scope.Valid names) :
    (∃ a, Arena.parse source names maxDepth = .ok a) ↔
      ∃ p : Phrase .sum, p.Spells source ∧
        (∀ n ∈ p.literals, (n : Int) ≤ Int64.maxValue.toInt) ∧
          p.Admissible names maxDepth := by
  constructor
  · rintro ⟨a, ha⟩
    obtain ⟨t, ht, -⟩ := parse_eq_ok_iff.mp ha
    obtain ⟨p, hp⟩ := Tree.exists_spells_of_parse ht
    obtain ⟨hliterals, hread⟩ := Tree.read_of_parse ht hp
    exact ⟨p, hp, hliterals,
      (Phrase.exists_read_iff (Nat.zero_le maxDepth)).mp ⟨t, hread⟩⟩
  · rintro ⟨p, hp, hliterals, hadmissible⟩
    obtain ⟨t, hread⟩ := (Phrase.exists_read_iff (Nat.zero_le maxDepth)).mpr hadmissible
    exact ⟨_, parse_eq_ok_iff.mpr ⟨t, Tree.parse_of_read hnames hp hliterals hread, rfl⟩⟩

/-- The source `2*(x-1)` is accepted, so an admissible phrase spells it. -/
theorem exists_parse_iff_nested :
    Scope.Valid ["x"] ∧ ∃ p : Phrase .sum, p.Spells "2*(x-1)" ∧
      (∀ n ∈ p.literals, (n : Int) ≤ Int64.maxValue.toInt) ∧ p.Admissible ["x"] 1 := by
  have hnames : Scope.Valid ["x"] := by decide +kernel
  have hparse : Arena.parse "2*(x-1)" ["x"] 1 =
      .ok ⟨#[⟨.param 0, ⟨3, 4⟩⟩, ⟨.literal 1, ⟨5, 6⟩⟩, ⟨.literal 2, ⟨0, 1⟩⟩,
        ⟨.binary .sub 0 1, ⟨3, 6⟩⟩, ⟨.binary .mul 2 3, ⟨0, 6⟩⟩], 1⟩ := by
    decide +kernel
  exact ⟨hnames, (exists_parse_iff hnames).mp ⟨_, hparse⟩⟩

/-! ## The meaning of an accepted source -/

/-- The arena of a tree evaluates to the value of the tree, or to the span of the division
at which it fails. -/
theorem evaluate_ofTree {t : Tree Span} {paramCount : Nat} {args : List Int64}
    (hparams : ∀ index ∈ t.params, index < paramCount)
    (hlength : args.length = paramCount) :
    (ofTree t paramCount).evaluate args =
      (t.eval args).mapError fun span => .divisionByZero (some span) none := by
  have heval := Tree.eval_map Place.span args (t.placed 0 t.descendants)
  rw [Tree.map_span_placed] at heval
  rw [(stores_ofTree hparams).evaluate_eq hlength, heval]
  cases (t.placed 0 t.descendants).eval args <;> rfl

/-- An accepted source is spelled by a phrase, and whichever phrase spells it, the
evaluation has the value of the phrase; it fails, with a division by zero, exactly if a
divisor of the phrase is zero. -/
theorem evaluate_eq_denote (h : Arena.parse source names maxDepth = .ok a)
    (args : List Int64) (hlength : args.length = a.paramCount) :
    (∃ p : Phrase .sum, p.Spells source) ∧
      ∀ p : Phrase .sum, p.Spells source →
        (∀ v, a.evaluate args = .ok v ↔ p.denote (Phrase.binding names args) = some v) ∧
        ((∃ span, a.evaluate args = .error (.divisionByZero (some span) none)) ↔
          p.denote (Phrase.binding names args) = none) ∧
        (p.denote (Phrase.binding names args) = none ↔
          ∃ d ∈ p.divisors, d.denote (Phrase.binding names args) = some 0) := by
  obtain ⟨t, ht, rfl⟩ := parse_eq_ok_iff.mp h
  refine ⟨Tree.exists_spells_of_parse ht, fun p hp => ?_⟩
  obtain ⟨-, hread⟩ := Tree.read_of_parse ht hp
  have hvalue := (Phrase.reads_of_read hread).value args
  rw [evaluate_ofTree (params_of_parse ht) hlength, ← hvalue]
  refine ⟨?_, ?_, ?_⟩
  · intro v
    cases t.eval args with
    | error span =>
      constructor
      · intro hv
        cases hv
      · intro hv
        cases hv
    | ok u =>
      constructor
      · intro hv
        exact congrArg some (Except.ok.inj hv)
      · intro hv
        exact congrArg Except.ok (Option.some.inj hv)
  · cases t.eval args with
    | error span => exact ⟨fun _ => rfl, fun _ => ⟨span, rfl⟩⟩
    | ok u =>
      constructor
      · rintro ⟨span, hspan⟩
        cases hspan
      · intro hnone
        cases hnone
  · rw [hvalue]
    exact p.denote_eq_none_iff

/-- For `3`, a phrase that spells `6/(x-2)` has the value that the source evaluates to. -/
theorem evaluate_eq_denote_quotient :
    ∃ a, Arena.parse "6/(x-2)" ["x"] 1 = .ok a ∧ [3].length = a.paramCount ∧
      ∃ p : Phrase .sum, p.Spells "6/(x-2)" ∧
        p.denote (Phrase.binding ["x"] [3]) = some 6 := by
  have hparse : Arena.parse "6/(x-2)" ["x"] 1 =
      .ok ⟨#[⟨.param 0, ⟨3, 4⟩⟩, ⟨.literal 2, ⟨5, 6⟩⟩, ⟨.literal 6, ⟨0, 1⟩⟩,
        ⟨.binary .sub 0 1, ⟨3, 6⟩⟩, ⟨.binary .div 2 3, ⟨0, 6⟩⟩], 1⟩ := by
    decide +kernel
  obtain ⟨⟨p, hp⟩, hmeaning⟩ := evaluate_eq_denote hparse [3] rfl
  exact ⟨_, hparse, rfl, p, hp, ((hmeaning p hp).1 6).mp (by decide +kernel)⟩

end Arena

end Abacus
