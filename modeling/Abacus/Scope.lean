import Abacus.ParseError
import Abacus.Token

set_option autoImplicit false

/-!
# Parameter names

An expression is read against an ordered list of parameter names.  Every name has to be an
identifier and to differ from the names before it; the first name that breaks this rule is
reported, whatever the expression.
-/

namespace Abacus.Scope

/-- The first fault of the names in `rest`, when the names in `seen` stand before them. -/
def faultAfter (seen : List String) : List String → Option ParseError.Cause
  | [] => none
  | name :: rest =>
    if Token.isIdentifier name then
      match seen.idxOf? name with
      | some first => some (.duplicatedArgumentName seen.length first name)
      | none => faultAfter (seen ++ [name]) rest
    else
      some (.illegalArgumentName seen.length name)

/-- The first fault of a list of parameter names. -/
def fault? (names : List String) : Option ParseError.Cause :=
  faultAfter [] names

/-- A list of parameter names without fault. -/
def Valid (names : List String) : Prop :=
  (∀ name ∈ names, Token.isIdentifier name = true) ∧ names.Nodup

instance (names : List String) : Decidable (Valid names) :=
  inferInstanceAs (Decidable (_ ∧ _))

theorem faultAfter_eq_none_iff {seen names : List String} :
    faultAfter seen names = none ↔
      (∀ name ∈ names, Token.isIdentifier name = true ∧ name ∉ seen) ∧ names.Nodup := by
  induction names generalizing seen with
  | nil => simp [faultAfter]
  | cons name rest ih =>
    simp only [faultAfter]
    split
    · rename_i hname
      split
      · rename_i first hfirst
        have hmem : name ∈ seen := by
          rw [← List.isSome_idxOf?, hfirst]
          rfl
        simp [hmem]
      · rename_i hfirst
        have hmem : name ∉ seen := by
          rw [← List.isSome_idxOf?, hfirst]
          simp
        rw [ih]
        simp only [List.mem_append, List.mem_cons, List.nodup_cons]
        grind
    · rename_i hname
      simp [hname]

/-- Only a valid list of names is without fault. -/
theorem fault?_eq_none_iff {names : List String} : fault? names = none ↔ Valid names := by
  simp [fault?, Valid, faultAfter_eq_none_iff]

theorem argument_ne_none_of_faultAfter {seen names : List String}
    {cause : ParseError.Cause} (h : faultAfter seen names = some cause) :
    cause.argument ≠ none := by
  induction names generalizing seen with
  | nil => cases h
  | cons name rest ih =>
    simp only [faultAfter] at h
    split at h
    · split at h
      · obtain rfl := Option.some.inj h
        nofun
      · exact ih h
    · obtain rfl := Option.some.inj h
      nofun

/-- A fault is about one of the names. -/
theorem argument_ne_none_of_fault? {names : List String} {cause : ParseError.Cause}
    (h : fault? names = some cause) : cause.argument ≠ none :=
  argument_ne_none_of_faultAfter h

end Abacus.Scope
