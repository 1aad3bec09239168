import Mathlib.Data.List.Perm.Subperm
import Abacus.Proofs.Agreement
import Abacus.Proofs.Simplify.Renaming

set_option autoImplicit false

/-!
# Only the binding of names matters

The order of the parameters decides the positions in trees and in code, and the simplifier
compares positions.  None of this can be seen from outside: if two lists of parameters
bind the identifiers of a source to the same values, then whatever is done with the source
has the same outcome for both.

The two are not compared with each other but with a third list, which holds the names that
occur in the source and nothing else.  From there `reindex` leads to the positions in
either list.

Main statement: `Expression.compile_congr`.
-/

namespace Abacus

/-! ## From one list of names into another -/

/-- Where the names of the first list stand in the second.  Positions past the end of the
first lead past the end of the second, so that different ones stay different. -/
def reindex (names names' : List String) (i : Nat) : Nat :=
  match names[i]? with
  | some name => names'.idxOf name
  | none => names'.length + i

section

variable {names names' : List String}

theorem reindex_injective (hnodup : names.Nodup) (hsubset : names ⊆ names') :
    Function.Injective (reindex names names') := by
  have hlt {i : Nat} {name : String} (h : names[i]? = some name) :
      names'.idxOf name < names'.length :=
    List.idxOf_lt_length_of_mem (hsubset (List.mem_of_getElem? h))
  intro i j h
  unfold reindex at h
  cases hi : names[i]? with
  | some name =>
    cases hj : names[j]? with
    | some name' =>
      simp only [hi, hj] at h
      obtain rfl := (List.idxOf_inj (hsubset (List.mem_of_getElem? hi))).mp h
      obtain ⟨hilt, -⟩ := List.getElem?_eq_some_iff.mp hi
      exact (List.getElem?_inj hilt hnodup).mp (hi.trans hj.symm)
    | none =>
      have := hlt hi
      simp only [hi, hj] at h
      omega
  | none =>
    cases hj : names[j]? with
    | some name' =>
      have := hlt hj
      simp only [hi, hj] at h
      omega
    | none =>
      simp only [hi, hj] at h
      omega

/-- A name of the first list stands in the second where `reindex` says. -/
theorem idxOf?_reindex {name : String} (hsubset : names ⊆ names') (h : name ∈ names) :
    names'.idxOf? name = (names.idxOf? name).map (reindex names names') := by
  have hget : names[names.idxOf name]? = some name := by
    rw [List.getElem?_eq_getElem (List.idxOf_lt_length_of_mem h), List.getElem_idxOf]
  rw [Phrase.idxOf?_of_mem h, Phrase.idxOf?_of_mem (hsubset h), Option.map_some,
    reindex, hget]

/-- The arguments for the second list, in the order of the first. -/
theorem getD_reindex {args' : List Int64} (hlength : args'.length = names'.length)
    (i : Nat) :
    args'.getD (reindex names names' i) 0 =
      (names.map (Phrase.binding names' args')).getD i 0 := by
  rw [List.getD_eq_getElem?_getD, List.getD_eq_getElem?_getD, List.getElem?_map, reindex]
  cases names[i]? with
  | some name =>
    rw [Option.map_some, Option.getD_some, Phrase.binding, List.getD_eq_getElem?_getD]
  | none =>
    have hpast : args'.length ≤ names'.length + i := by omega
    rw [Option.map_none, List.getElem?_eq_none hpast]

end

/-- The names of a list that occur in a source. -/
def occurring (source : String) (names : List String) : List String :=
  names.filter (· ∈ (Scan.ofText source.toList).identifiers)

theorem mem_occurring {source name : String} {names : List String} :
    name ∈ occurring source names ↔
      name ∈ names ∧ name ∈ (Scan.ofText source.toList).identifiers := by
  simp [occurring]

theorem valid_occurring {source : String} {names : List String} (h : Scope.Valid names) :
    Scope.Valid (occurring source names) :=
  ⟨fun name hname => h.1 name (mem_occurring.mp hname).1, h.2.filter _⟩

/-- Reading against more names gives the same tree up to the positions of the names, or
the same error. -/
theorem Tree.parse_reindex {source : String} {names names' : List String} {maxDepth : Nat}
    (hnames : Scope.Valid names) (hnames' : Scope.Valid names') (hsubset : names ⊆ names')
    (hidentifiers : (Scan.ofText source.toList).identifiers ⊆ names) :
    Tree.parse source names' maxDepth =
      (Tree.parse source names maxDepth).map (rename (reindex names names')) := by
  have hrenames : ∀ t ∈ (Scan.ofText source.toList).tokens,
      Parse.Renames (reindex names names') names names' t := fun t ht name hkind =>
    idxOf?_reindex hsubset (hidentifiers (Scan.mem_identifiers ht hkind))
  rw [parse, parse, Scope.fault?_eq_none_iff.mpr hnames,
    Scope.fault?_eq_none_iff.mpr hnames']
  dsimp only
  rw [Parse.ofScan_rename hrenames]
  cases Parse.ofScan names maxDepth (Scan.ofText source.toList) <;> rfl

/-! ## Compiled expressions -/

theorem Options.compiled_rename {f : Nat → Nat} (hf : Function.Injective f)
    (options : Options) (t : Tree Place) :
    options.compiled (t.rename f) = (options.compiled t).rename f := by
  unfold compiled
  split
  · exact t.simplify_rename hf
  · rfl

namespace Expression

variable {source : String} {names names' : List String} {options : Options}
  {e e' : Expression}
  {t u : Tree Place} {args args' : List Int64}

/-- Expressions whose forms differ by a renaming have the same outcomes, if the arguments
have moved along. -/
theorem Forms.evaluate_rename {f : Nat → Nat} (h : e.Forms source names options t u)
    (h' : e'.Forms source names' options (t.rename f) (u.rename f))
    (hnames : names.length ≤ UInt64.size) (hnames' : names'.length ≤ UInt64.size)
    (hlength : args.length = names.length) (hlength' : args'.length = names'.length)
    (hargs : ∀ i, args'.getD (f i) 0 = args.getD i 0) (s : Strategy) :
    e'.evaluate args' s = e.evaluate args s := by
  rw [h.evaluate_eq hnames hlength, h'.evaluate_eq hnames' hlength']
  simp only [Tree.eval_rename hargs, Tree.offsetOf_rename]

/-- Outcomes of the evaluation decide what the caller sees. -/
theorem run_congr (hsource : e.source = e'.source)
    (hlength : args.length = e.names.length) (hlength' : args'.length = e'.names.length)
    {s : Strategy} (h : e.evaluate args s = e'.evaluate args' s) :
    e.run args s = e'.run args' s := by
  rw [run, run, if_neg (not_not_intro hlength), if_neg (not_not_intro hlength'), h,
    hsource]

/-- Compiling against more names has the same outcome, and each strategy has the outcome
that it has for the arguments of the names that occur. -/
theorem compile_reindex (options : Options) (hnames : Scope.Valid names)
    (hnames' : Scope.Valid names') (hsubset : names ⊆ names')
    (hsize : names'.length ≤ UInt64.size)
    (hidentifiers : (Scan.ofText source.toList).identifiers ⊆ names) :
    (∃ failure, compile source names options = .error failure ∧
      compile source names' options = .error failure) ∨
    ∃ e e', compile source names options = .ok e ∧
      compile source names' options = .ok e' ∧
      e'.source = source ∧ e'.names = names' ∧
      ∀ args' : List Int64, args'.length = names'.length → ∀ s,
        e'.evaluate args' s = e.evaluate (names.map (Phrase.binding names' args')) s := by
  have hparse : Tree.parse source names' options.maxDepth = _ :=
    Tree.parse_reindex hnames hnames' hsubset hidentifiers
  have hf := reindex_injective hnames.2 hsubset
  have hsize' : names.length ≤ UInt64.size :=
    Nat.le_trans (List.Nodup.subperm hnames.2 hsubset).length_le hsize
  cases hread : Tree.parse source names options.maxDepth with
  | error error =>
    rw [hread] at hparse
    exact Or.inl ⟨_, compile_of_parse_error hread, compile_of_parse_error hparse⟩
  | ok p =>
    rw [hread] at hparse
    obtain ⟨e, hcompile, hforms⟩ := exists_forms_of_parse hread
    obtain ⟨e', hcompile', hforms'⟩ := exists_forms_of_parse hparse
    rw [Tree.placed_rename, Tree.descendants_rename, Options.compiled_rename hf]
      at hforms'
    refine Or.inr ⟨e, e', hcompile, hcompile', hforms'.source_eq, hforms'.names_eq, ?_⟩
    intro args' hlength' s
    exact hforms.evaluate_rename hforms' hsize' hsize (List.length_map ..) hlength'
      (getD_reindex hlength') s

/-! ## Two lists of parameters -/

/-- The name stands in both lists of parameters and is bound to the same value by both. -/
structure BoundAlike (names names' : List String) (args args' : List Int64)
    (name : String) : Prop where
  mem : name ∈ names
  mem' : name ∈ names'
  value : Phrase.binding names args name = Phrase.binding names' args' name

/-- If two lists of parameters bind the identifiers of a source to the same values,
compiling the source against them fails in the same way, or succeeds for both, and then
every strategy has the same outcome: the same value, or a division by zero with the same
span or the same offset in the code.  The positions of the parameters have to fit in a
word. -/
theorem compile_congr (options : Options) (hnames : Scope.Valid names)
    (hnames' : Scope.Valid names') (hsize : names.length ≤ UInt64.size)
    (hsize' : names'.length ≤ UInt64.size) (hlength : args.length = names.length)
    (hlength' : args'.length = names'.length)
    (hbound : ∀ name ∈ (Scan.ofText source.toList).identifiers,
      BoundAlike names names' args args' name) :
    (∃ failure, compile source names options = .error failure ∧
      compile source names' options = .error failure) ∨
    ∃ e e', compile source names options = .ok e ∧
      compile source names' options = .ok e' ∧
      ∀ s, e.evaluate args s = e'.evaluate args' s ∧ e.run args s = e'.run args' s := by
  have hcommon : Scope.Valid (occurring source names) := valid_occurring hnames
  have hbounds :
      ∀ name ∈ occurring source names, BoundAlike names names' args args' name :=
    fun name hname => hbound name (mem_occurring.mp hname).2
  have hidentifiers : (Scan.ofText source.toList).identifiers ⊆ occurring source names :=
    fun name hname => mem_occurring.mpr ⟨(hbound name hname).mem, hname⟩
  have hbinding : (occurring source names).map (Phrase.binding names args) =
      (occurring source names).map (Phrase.binding names' args') :=
    List.map_congr_left fun name hname => (hbounds name hname).value
  have hleft :=
    compile_reindex options hcommon hnames (fun name hname => (hbounds name hname).mem)
    hsize hidentifiers
  have hright := compile_reindex options hcommon hnames'
    (fun name hname => (hbounds name hname).mem') hsize' hidentifiers
  rcases hleft with
    ⟨failure, hfail, hfailure⟩ | ⟨c, e, hc, he, hsource, hnamed, hevaluate⟩
  · rcases hright with ⟨failure', hfail', hfailure'⟩ | ⟨c', e', hc', -⟩
    · obtain rfl := Except.error.inj (hfail.symm.trans hfail')
      exact Or.inl ⟨failure, hfailure, hfailure'⟩
    · cases hfail.symm.trans hc'
  · rcases hright with
      ⟨failure', hfail', -⟩ | ⟨c', e', hc', he', hsource', hnamed', hevaluate'⟩
    · cases hc.symm.trans hfail'
    · obtain rfl := Except.ok.inj (hc.symm.trans hc')
      refine Or.inr ⟨e, e', he, he', fun s => ?_⟩
      have hsame : e.evaluate args s = e'.evaluate args' s := by
        rw [hevaluate args hlength s, hevaluate' args' hlength' s, hbinding]
      exact ⟨hsame, run_congr (hsource.trans hsource'.symm) (hnamed ▸ hlength)
        (hnamed' ▸ hlength') hsame⟩

/-- The source `10/(x-y)` against two lists that name `x` and `y` in different orders. -/
theorem compile_congr_permuted :
    Scope.Valid ["x", "y"] ∧ Scope.Valid ["y", "z", "x"] ∧
      (∀ name ∈ (Scan.ofText "10/(x-y)".toList).identifiers,
        BoundAlike ["x", "y"] ["y", "z", "x"] [7, 2] [2, 9, 7] name) ∧
      ∃ e e', compile "10/(x-y)" ["x", "y"] {} = .ok e ∧
        compile "10/(x-y)" ["y", "z", "x"] {} = .ok e' ∧
        ∀ s, e.evaluate [7, 2] s = e'.evaluate [2, 9, 7] s ∧
          e.run [7, 2] s = e'.run [2, 9, 7] s := by
  have hnames : Scope.Valid ["x", "y"] := by decide +kernel
  have hnames' : Scope.Valid ["y", "z", "x"] := by decide +kernel
  have hidentifiers : (Scan.ofText "10/(x-y)".toList).identifiers = ["x", "y"] := by
    decide +kernel
  have hbound : ∀ name ∈ (Scan.ofText "10/(x-y)".toList).identifiers,
      BoundAlike ["x", "y"] ["y", "z", "x"] [7, 2] [2, 9, 7] name := by
    rw [hidentifiers, List.forall_mem_cons, List.forall_mem_singleton]
    exact ⟨⟨by decide, by decide, by decide +kernel⟩,
      ⟨by decide, by decide, by decide +kernel⟩⟩
  refine ⟨hnames, hnames', hbound, ?_⟩
  rcases compile_congr {} hnames hnames' (by decide) (by decide) rfl rfl hbound with
    ⟨failure, hfailure, -⟩ | hcompiled
  · have hparse : ∃ t, Tree.parse "10/(x-y)" ["x", "y"] ({} : Options).maxDepth = .ok t :=
      ⟨.binary ⟨0, 7⟩ .div (.literal ⟨0, 2⟩ 10)
        (.binary ⟨4, 7⟩ .sub (.param ⟨4, 5⟩ 0) (.param ⟨6, 7⟩ 1)), by decide +kernel⟩
    obtain ⟨t, ht⟩ := hparse
    obtain ⟨e, he, -⟩ := exists_forms_of_parse ht
    cases hfailure.symm.trans he
  · exact hcompiled

end Expression

end Abacus
