import Mathlib.Data.List.Basic
import Abacus.Proofs.Step

set_option autoImplicit false

/-!
# What is read means what the phrase means

Whatever contains no identifier is computed while it is read, signs are collected before
they are applied, and identifiers become positions.  `Phrase.Reads` says that none of this
changes a meaning: the tree that a phrase is read as has the values of the phrase, and it
is a literal exactly where the phrase is a constant.  With that, the violations that
depend on values are violations of the phrase.

Main statements:

* `Phrase.reads_of_read`: the tree of a phrase has the meaning of the phrase.
* `Phrase.exists_read_iff`: which phrases are read without violation.
-/

namespace Abacus

open Parse

/-! ## Values of trees and phrases -/

namespace Tree

/-- An operation on two literals is a literal, if it has a value. -/
theorem literal?_join (op : Operator) (left right : Tree Span) :
    (join op left right).literal? = op.combine? left.literal? right.literal? := by
  rw [join]
  cases left.literal? with
  | none => rfl
  | some l =>
    cases right.literal? with
    | none => rfl
    | some r =>
      rw [Operator.combine?_some]
      dsimp only
      cases op.compute? l r <;> rfl

/-- Computing an operation early does not change its value. -/
theorem toOption_eval_join (args : List Int64) (op : Operator) (left right : Tree Span) :
    ((join op left right).eval args).toOption =
      op.combine? (left.eval args).toOption (right.eval args).toOption := by
  rw [join]
  split
  · rename_i l r hl hr
    split
    · rename_i value hvalue
      rw [eval_of_literal? hl, eval_of_literal? hr]
      exact ((Operator.combine?_some op l r).trans hvalue).symm
    · exact toOption_eval_binary _ _ _ _ _
  · exact toOption_eval_binary _ _ _ _ _

theorem params_join (op : Operator) (left right : Tree Span) :
    ∀ index ∈ (join op left right).params, index ∈ left.params ++ right.params := by
  intro index hindex
  rw [join] at hindex
  split at hindex
  · split at hindex
    · cases hindex
    · exact hindex
  · exact hindex

end Tree

namespace Phrase

theorem constant?_operation {level level' level'' : Level} {p : Phrase level}
    {left : Phrase level'} {right : Phrase level''} {op : Operator}
    (hidentifiers : p.identifiers = left.identifiers ++ right.identifiers)
    (hdenote : ∀ env, p.denote env = op.combine? (left.denote env) (right.denote env)) :
    p.constant? = op.combine? left.constant? right.constant? := by
  simp only [constant?, hidentifiers, List.append_eq_nil_iff, hdenote]
  by_cases hl : left.identifiers = []
  · by_cases hr : right.identifiers = []
    · simp [hl, hr]
    · simp [hl, hr]
  · simp [hl]

theorem constant?_atom (signs : List Sign) (operand : Phrase .atom) :
    (atom signs operand).constant? = operand.constant?.map (Sign.apply signs) := by
  by_cases h : operand.identifiers = []
  · simp [constant?, identifiers, denote, h]
  · simp [constant?, identifiers, h]

end Phrase

/-! ## Signs -/

namespace Sign

/-- The reader keeps the parity of the minus signs. -/
theorem negative_run (signs : List Sign) :
    (run signs).any Signs.negative = odd signs := by
  have hfold : ∀ (signs : List Sign) (start : Option Signs),
      (signs.foldl (fun run s => some (addSign run s.span s.minus)) start).any
          Signs.negative =
        (start.any Signs.negative != odd signs) := by
    intro signs
    induction signs with
    | nil =>
      intro start
      simp [odd]
    | cons s signs ih =>
      intro start
      have hadd : (addSign start s.span s.minus).negative =
          (start.any Signs.negative != s.minus) := by
        cases start with
        | none => simp [addSign]
        | some run => rfl
      rw [List.foldl_cons, ih, Option.any_some, hadd, odd_cons]
      cases start.any Signs.negative <;> cases s.minus <;> cases odd signs <;> rfl
  rw [run, hfold]
  simp

/-- An even number of minus signs leaves the operand as it is. -/
theorem applySigns_of_even {signs : List Sign} (h : odd signs = false) (t : Tree Span) :
    applySigns (run signs) t = .ok t := by
  have hnegative := negative_run signs
  rw [h] at hnegative
  rcases hrun : run signs with - | ⟨start, negative⟩
  · rfl
  · rw [hrun] at hnegative
    obtain rfl : negative = false := hnegative
    rfl

/-- An odd number of minus signs negates the operand. -/
theorem applySigns_of_odd {signs : List Sign} (h : odd signs = true) (t : Tree Span) :
    ∃ span, applySigns (run signs) t =
      match t.literal? with
      | some value =>
        if value = Int64.minValue then .error ⟨.valueOutOfRange, span⟩
        else .ok (.literal span (-value))
      | none => .ok (.negate span t) := by
  have hnegative := negative_run signs
  rw [h] at hnegative
  rcases hrun : run signs with - | ⟨start, negative⟩
  · rw [hrun] at hnegative
    cases hnegative
  · rw [hrun] at hnegative
    obtain rfl : negative = true := hnegative
    exact ⟨⟨start, t.tag.stop⟩, rfl⟩

/-- Only the least literal cannot be negated. -/
theorem exists_applySigns_iff (signs : List Sign) (t : Tree Span) :
    (∃ u, applySigns (run signs) t = .ok u) ↔
      (odd signs = true → t.literal? ≠ some Int64.minValue) := by
  cases h : odd signs with
  | false => simp [applySigns_of_even h]
  | true =>
    obtain ⟨span, hspan⟩ := applySigns_of_odd h t
    rw [hspan]
    cases t.literal? with
    | none => simp
    | some value =>
      by_cases hvalue : value = Int64.minValue <;> simp [hvalue]

end Sign

namespace Phrase

/-! ## The meaning of what is read -/

/-- The values of the identifiers: an argument for each name, in the order of the
names. -/
def binding (names : List String) (args : List Int64) (name : String) : Int64 :=
  args.getD (names.idxOf name) 0

/-- A tree means what a phrase means. -/
structure Reads (names : List String) {level : Level} (p : Phrase level) (t : Tree Span) :
    Prop where
  /-- The tree has the values of the phrase, whatever the arguments. -/
  value : ∀ args, (t.eval args).toOption = p.denote (binding names args)
  /-- The tree is a literal exactly if the phrase is a constant. -/
  literal : t.literal? = p.constant?
  /-- The tree has no parameters but those that are named. -/
  params : ∀ index ∈ t.params, index < names.length

variable {names : List String} {maxDepth depth : Nat}

theorem Reads.join {level level' level'' : Level} {p : Phrase level}
    {left : Phrase level'} {right : Phrase level''} {op : Operator} {l r : Tree Span}
    (hidentifiers : p.identifiers = left.identifiers ++ right.identifiers)
    (hdenote : ∀ env, p.denote env = op.combine? (left.denote env) (right.denote env))
    (hl : Reads names left l) (hr : Reads names right r) :
    Reads names p (Tree.join op l r) where
  value args := by rw [Tree.toOption_eval_join, hl.value, hr.value, hdenote]
  literal := by
    rw [Tree.literal?_join, hl.literal, hr.literal,
      constant?_operation hidentifiers hdenote]
  params index hindex := by
    rcases List.mem_append.mp (Tree.params_join op l r index hindex) with h | h
    · exact hl.params index h
    · exact hr.params index h

theorem Reads.atom {signs : List Sign} {operand : Phrase .atom} {t u : Tree Span}
    (h : Reads names operand t) (hsigns : applySigns (Sign.run signs) t = .ok u) :
    Reads names (.atom signs operand) u := by
  cases hodd : Sign.odd signs with
  | false =>
    have happly : Sign.apply signs = id :=
      funext fun value => by simp [Sign.apply_eq, hodd]
    rw [Sign.applySigns_of_even hodd] at hsigns
    obtain rfl := Except.ok.inj hsigns
    refine ⟨fun args => ?_, ?_, h.params⟩
    · rw [denote, happly, Option.map_id_fun, id, h.value]
    · rw [constant?_atom, happly, Option.map_id_fun, id, h.literal]
  | true =>
    have happly : Sign.apply signs = (-·) :=
      funext fun value => by simp [Sign.apply_eq, hodd]
    obtain ⟨span, hspan⟩ := Sign.applySigns_of_odd hodd t
    rw [hspan] at hsigns
    cases hliteral : t.literal? with
    | none =>
      rw [hliteral] at hsigns
      obtain rfl := Except.ok.inj hsigns
      refine ⟨fun args => ?_, ?_, h.params⟩
      · rw [Tree.toOption_eval_negate, denote, happly, h.value]
      · rw [constant?_atom, ← h.literal, hliteral]
        rfl
    | some value =>
      rw [hliteral] at hsigns
      dsimp only at hsigns
      split at hsigns
      · cases hsigns
      · obtain rfl := Except.ok.inj hsigns
        refine ⟨fun args => ?_, ?_, fun index hindex => by cases hindex⟩
        · rw [denote, happly, ← h.value, Tree.eval_of_literal? hliteral]
          rfl
        · rw [constant?_atom, happly, ← h.literal, hliteral]
          rfl

/-- A name in the list is found at its first position. -/
theorem idxOf?_of_mem {name : String} (h : name ∈ names) :
    names.idxOf? name = some (names.idxOf name) := by
  obtain ⟨index, hindex⟩ := Option.isSome_iff_exists.mp (List.isSome_idxOf?.mpr h)
  rw [hindex, List.idxOf_eq_getD_idxOf?, hindex]
  rfl

theorem idxOf?_getElem (hnames : names.Nodup) {index : Nat}
    (hindex : index < names.length) :
    names.idxOf? names[index] = some index := by
  rw [idxOf?_of_mem (List.getElem_mem hindex), hnames.idxOf_getElem index hindex]

theorem Reads.ident (span : Span) {name : String} {index : Nat}
    (h : names.idxOf? name = some index) :
    Reads names (.ident span name) (.param span index) := by
  have hmem : name ∈ names := by
    rw [← List.isSome_idxOf?, h]
    rfl
  have hindex : names.idxOf name = index :=
    Option.some.inj ((idxOf?_of_mem hmem).symm.trans h)
  refine ⟨fun args => ?_, rfl, fun i hi => ?_⟩
  · rw [denote, binding, hindex]
    rfl
  · obtain rfl := List.mem_singleton.mp hi
    rw [← hindex]
    exact List.idxOf_lt_length_of_mem hmem

theorem exists_closeProduct_iff (left right : Tree Span) (op : Operator) :
    (∃ t, closeProduct (some ⟨left, op⟩) right = .ok t) ↔
      (op = .div → right.literal? ≠ some 0) := by
  rw [closeProduct]
  dsimp only
  split <;> simp_all

/-- A relation between phrases and trees holds between a phrase and the tree that it is
read as, if every rule of the grammar passes it on from the parts to the whole. -/
theorem read_rel {R : {level : Level} → Phrase level → Tree Span → Prop}
    (product : ∀ body t, R body t → R (.product body) t)
    (addend : ∀ left op additive span right l r, R left l → R right r →
      R (.addend left op additive span right) (Tree.join op l r))
    (signed : ∀ body t, R body t → R (.signed body) t)
    (factor : ∀ left op multiplicative span right l r, R left l → R right r →
      (op = .div → r.literal? ≠ some 0) →
        R (.factor left op multiplicative span right) (Tree.join op l r))
    (atom : ∀ signs operand t u, R operand t → applySigns (Sign.run signs) t = .ok u →
      R (.atom signs operand) u)
    (literal : ∀ span value, R (.literal span value) (.literal span (Int64.ofNat value)))
    (ident : ∀ span name index, names.idxOf? name = some index →
      R (.ident span name) (.param span index))
    (group : ∀ opening closing body t, R body t → R (.group opening closing body) t)
    {level : Level} {p : Phrase level} {t : Tree Span}
    (h : p.read names maxDepth depth = .ok t) :
    R p t := by
  induction p generalizing depth t with
  | product body ih => exact product _ _ (ih h)
  | addend left op additive span right ihl ihr =>
    rw [read] at h
    obtain ⟨l, hl, h⟩ := bind_eq_ok_iff.mp h
    obtain ⟨r, hr, h⟩ := bind_eq_ok_iff.mp h
    obtain rfl := Except.ok.inj h
    exact addend _ _ _ _ _ _ _ (ihl hl) (ihr hr)
  | signed body ih => exact signed _ _ (ih h)
  | factor left op multiplicative span right ihl ihr =>
    rw [read] at h
    obtain ⟨l, hl, h⟩ := bind_eq_ok_iff.mp h
    obtain ⟨r, hr, h⟩ := bind_eq_ok_iff.mp h
    have hdivisor := (exists_closeProduct_iff l r op).mp ⟨t, h⟩
    obtain rfl := closeProduct_eq_ok h
    exact factor _ _ _ _ _ _ _ (ihl hl) (ihr hr) hdivisor
  | atom signs operand ih =>
    rw [read] at h
    obtain ⟨u, hu, h⟩ := bind_eq_ok_iff.mp h
    exact atom _ _ _ _ (ih hu) h
  | literal span value =>
    obtain rfl := Except.ok.inj h
    exact literal _ _
  | ident span name =>
    rw [read] at h
    split at h
    · rename_i index hindex
      obtain rfl := Except.ok.inj h
      exact ident _ _ _ hindex
    · cases h
  | group opening closing body ih =>
    rw [read] at h
    split at h
    · exact group _ _ _ _ (ih h)
    · cases h

/-- The tree that a phrase is read as means what the phrase means. -/
theorem reads_of_read {level : Level} {p : Phrase level} {t : Tree Span}
    (h : p.read names maxDepth depth = .ok t) : Reads names p t := by
  apply read_rel (R := Reads names) (h := h)
  case product => exact fun _ _ h => ⟨h.value, h.literal, h.params⟩
  case addend => exact fun _ _ _ _ _ _ _ => .join rfl fun _ => rfl
  case signed => exact fun _ _ h => ⟨h.value, h.literal, h.params⟩
  case factor => exact fun _ _ _ _ _ _ _ hl hr _ => .join rfl (fun _ => rfl) hl hr
  case atom => exact fun _ _ _ _ => .atom
  case literal => exact fun _ _ => ⟨fun _ => rfl, rfl, fun _ hindex => by cases hindex⟩
  case ident => exact fun span _ _ => .ident span
  case group => exact fun _ _ _ _ h => ⟨h.value, h.literal, h.params⟩

/-! ## Which phrases are read -/

/-- What a phrase has to observe beyond the grammar, where `budget` more parentheses may
be open. -/
structure Admissible (names : List String) (budget : Nat) {level : Level}
    (p : Phrase level) : Prop where
  /-- Every identifier is the name of a parameter. -/
  declared : ∀ name ∈ p.identifiers, name ∈ names
  /-- Parentheses are not nested too deep. -/
  nesting : p.nesting ≤ budget
  /-- No divisor is a constant zero. -/
  divisors : ∀ d ∈ p.divisors, d.constant? ≠ some 0
  /-- The least integer is not negated as a constant. -/
  negated : ∀ a ∈ p.negated, a.constant? ≠ some Int64.minValue

theorem admissible_iff {budget : Nat} {level : Level} {p : Phrase level} :
    Admissible names budget p ↔
      (∀ name ∈ p.identifiers, name ∈ names) ∧ p.nesting ≤ budget ∧
        (∀ d ∈ p.divisors, d.constant? ≠ some 0) ∧
        ∀ a ∈ p.negated, a.constant? ≠ some Int64.minValue :=
  ⟨fun h => ⟨h.declared, h.nesting, h.divisors, h.negated⟩,
    fun h => ⟨h.1, h.2.1, h.2.2.1, h.2.2.2⟩⟩

/-- An operation is admissible if its operands are and its own divisors are no constant
zeros. -/
theorem admissible_operation {budget : Nat} {level level' level'' : Level}
    {p : Phrase level} {left : Phrase level'} {right : Phrase level''}
    {own : List (Phrase .signed)}
    (hidentifiers : p.identifiers = left.identifiers ++ right.identifiers)
    (hnesting : p.nesting = max left.nesting right.nesting)
    (hdivisors : p.divisors = left.divisors ++ right.divisors ++ own)
    (hnegated : p.negated = left.negated ++ right.negated) :
    Admissible names budget p ↔
      Admissible names budget left ∧ Admissible names budget right ∧
        ∀ d ∈ own, d.constant? ≠ some 0 := by
  simp only [admissible_iff, hidentifiers, hnesting, hdivisors, hnegated,
    List.mem_append, or_imp, forall_and, Nat.max_le]
  constructor
  · rintro ⟨⟨hi, hi'⟩, ⟨hn, hn'⟩, ⟨⟨hd, hd'⟩, hown⟩, hs, hs'⟩
    exact ⟨⟨hi, hn, hd, hs⟩, ⟨hi', hn', hd', hs'⟩, hown⟩
  · rintro ⟨⟨hi, hn, hd, hs⟩, ⟨hi', hn', hd', hs'⟩, hown⟩
    exact ⟨⟨hi, hi'⟩, ⟨hn, hn'⟩, ⟨⟨hd, hd'⟩, hown⟩, hs, hs'⟩

theorem admissible_addend {budget : Nat} {left : Phrase .sum} {op : Operator}
    {additive : op.isAdditive = true} {span : Span} {right : Phrase .product} :
    Admissible names budget (.addend left op additive span right) ↔
      Admissible names budget left ∧ Admissible names budget right := by
  rw [admissible_operation rfl rfl (List.append_nil _).symm rfl]
  simp

theorem admissible_factor {budget : Nat} {left : Phrase .product} {op : Operator}
    {multiplicative : op.isAdditive = false} {span : Span} {right : Phrase .signed} :
    Admissible names budget (.factor left op multiplicative span right) ↔
      Admissible names budget left ∧ Admissible names budget right ∧
        (op = .div → right.constant? ≠ some 0) := by
  have hown : (∀ d ∈ (if op = .div then [right] else []), d.constant? ≠ some 0) ↔
      (op = .div → right.constant? ≠ some 0) := by
    by_cases hop : op = .div <;> simp [hop]
  rw [admissible_operation rfl rfl rfl rfl, hown]

theorem admissible_atom {budget : Nat} {signs : List Sign} {operand : Phrase .atom} :
    Admissible names budget (.atom signs operand) ↔
      Admissible names budget operand ∧
        (Sign.odd signs = true → operand.constant? ≠ some Int64.minValue) := by
  have hnegated : (∀ a ∈ (if Sign.odd signs = true then [operand] else []),
      a.constant? ≠ some Int64.minValue) ↔
        (Sign.odd signs = true → operand.constant? ≠ some Int64.minValue) := by
    by_cases hodd : Sign.odd signs = true <;> simp [hodd]
  simp only [admissible_iff, identifiers, nesting, divisors, negated,
    List.mem_append, or_imp, forall_and, hnegated, and_assoc]

theorem admissible_group {budget : Nat} {opening closing : Span} {body : Phrase .sum} :
    Admissible names budget (.group opening closing body) ↔
      0 < budget ∧ Admissible names (budget - 1) body := by
  simp only [admissible_iff, identifiers, nesting, divisors, negated]
  constructor
  · rintro ⟨hi, hn, h⟩
    exact ⟨by omega, hi, by omega, h⟩
  · rintro ⟨hpos, hi, hn, h⟩
    exact ⟨hi, by omega, h⟩

theorem exists_bind_ok_iff {α β : Type} {x : Except Violation α}
    {f : α → Except Violation β} :
    (∃ b, (x >>= f) = .ok b) ↔ ∃ a, x = .ok a ∧ ∃ b, f a = .ok b := by
  constructor
  · rintro ⟨b, hb⟩
    obtain ⟨a, ha, hb⟩ := bind_eq_ok_iff.mp hb
    exact ⟨a, ha, b, hb⟩
  · rintro ⟨a, ha, b, hb⟩
    exact ⟨b, bind_eq_ok_iff.mpr ⟨a, ha, hb⟩⟩

/-- A phrase is read without violation exactly if it is admissible. -/
theorem exists_read_iff {level : Level} {p : Phrase level} (hdepth : depth ≤ maxDepth) :
    (∃ t, p.read names maxDepth depth = .ok t) ↔
      Admissible names (maxDepth - depth) p := by
  induction p generalizing depth with
  | product body ih => rw [read, ih hdepth, admissible_iff, admissible_iff]; rfl
  | addend left op additive span right ihl ihr =>
    rw [read, admissible_addend, ← ihl hdepth, ← ihr hdepth, exists_bind_ok_iff]
    constructor
    · rintro ⟨l, hl, h⟩
      obtain ⟨r, hr, -⟩ := exists_bind_ok_iff.mp h
      exact ⟨⟨l, hl⟩, r, hr⟩
    · rintro ⟨⟨l, hl⟩, r, hr⟩
      exact ⟨l, hl, exists_bind_ok_iff.mpr ⟨r, hr, _, rfl⟩⟩
  | signed body ih => rw [read, ih hdepth, admissible_iff, admissible_iff]; rfl
  | factor left op multiplicative span right ihl ihr =>
    rw [read, admissible_factor, ← ihl hdepth, ← ihr hdepth, exists_bind_ok_iff]
    constructor
    · rintro ⟨l, hl, h⟩
      obtain ⟨r, hr, hclose⟩ := exists_bind_ok_iff.mp h
      rw [exists_closeProduct_iff, (reads_of_read hr).literal] at hclose
      exact ⟨⟨l, hl⟩, ⟨r, hr⟩, hclose⟩
    · rintro ⟨⟨l, hl⟩, ⟨r, hr⟩, hclose⟩
      refine ⟨l, hl, exists_bind_ok_iff.mpr ⟨r, hr, ?_⟩⟩
      rw [exists_closeProduct_iff, (reads_of_read hr).literal]
      exact hclose
  | atom signs operand ih =>
    rw [read, admissible_atom, ← ih hdepth, exists_bind_ok_iff]
    constructor
    · rintro ⟨t, ht, h⟩
      rw [Sign.exists_applySigns_iff, (reads_of_read ht).literal] at h
      exact ⟨⟨t, ht⟩, h⟩
    · rintro ⟨⟨t, ht⟩, h⟩
      refine ⟨t, ht, ?_⟩
      rw [Sign.exists_applySigns_iff, (reads_of_read ht).literal]
      exact h
  | literal span value =>
    simp [read, admissible_iff, identifiers, nesting, divisors, negated]
  | ident span name =>
    have hmem : name ∈ names ↔ (names.idxOf? name).isSome = true :=
      List.isSome_idxOf?.symm
    simp only [read, admissible_iff, identifiers, nesting, divisors, negated,
      List.mem_singleton, forall_eq, List.not_mem_nil, false_imp_iff, implies_true,
      and_true, Nat.zero_le, hmem]
    cases names.idxOf? name <;> simp
  | group opening closing body ih =>
    rw [read, admissible_group]
    by_cases h : depth < maxDepth
    · rw [if_pos h, ih (Nat.succ_le_of_lt h), Nat.sub_sub]
      exact (and_iff_right (by omega)).symm
    · have hzero : ¬ 0 < maxDepth - depth := by omega
      simp [h, hzero]

end Phrase

end Abacus
