import Abacus.Proofs.Scanning
import Abacus.Proofs.WrittenForm

set_option autoImplicit false

/-!
# Parameter names and identifiers

Names of parameters are checked before any source is scanned, and not by the scanner.
Still the two agree: a name is let through exactly if the scanner would take it as a
single identifier.  So every parameter can be referred to.  Of several faulty names the
first one is reported, whatever the source.

Main statements:

* `Scope.isIdentifier_iff_takenWhole`: the check of a name against the scan of the name.
* `Scope.isFirstFault_of_fault?`: the fault that is reported is about the first faulty
  name.
* `Scope.checked`: what the check of a list of names comes to for the sources read against
  it.
-/

namespace Abacus

/-! ## Violations of the reader -/

namespace Parse

theorem Complaint.argument {cause : ParseError.Cause} (h : Complaint cause) :
    cause.argument = none := by
  cases h <;> rfl

/-- No violation in a source is about a parameter name. -/
theorem argument_of_ofScan {names : List String} {maxDepth : Nat} {text : List Char}
    {v : Violation} (h : ofScan names maxDepth (Scan.ofText text) = .error v) :
    v.cause.argument = none := by
  rcases bind_eq_error_iff.mp h with hrun | ⟨state, -, h⟩
  · obtain ⟨before, t, after, middle, -, -, hstep⟩ := foldlM_eq_error hrun
    rcases complaint_of_step hstep with hcomplaint | ⟨rfl, -⟩
    · exact hcomplaint.argument
    · rfl
  · rcases bind_eq_error_iff.mp h with hending | ⟨offset, -, hfinish⟩
    · rcases Scan.isViolation_of_ending hending with
        hcause | ⟨c, hcause⟩ <;> rw [hcause] <;> rfl
    · exact (complaint_of_finish hfinish).argument

end Parse

namespace Scope

/-! ## A single name -/

/-- The scanner takes the name as an identifier, with nothing in front of it or behind
it. -/
def TakenWhole (name : String) : Prop :=
  ∃ text, (Scan.ofText name.toList).tokens =
    [⟨.ident text, ⟨0, Text.byteLength name.toList⟩⟩]

variable {name : String} {names : List String}

/-- An identifier is spelled with itself alone. -/
theorem spelled_of_isIdentifier (h : Token.isIdentifier name = true) :
    Spelled 0 name.toList [⟨.ident name, ⟨0, Text.byteLength name.toList⟩⟩]
      (Text.byteLength name.toList) := by
  have hident : Spelling (.ident name) name.toList [] :=
    .of_isIdentifier h fun _ h => by cases h
  have hend : Spelled (Text.byteLength name.toList) [] [] (Text.byteLength name.toList) :=
    .finished (.nil false)
  have hspelled := Spelled.lexeme (.nil false) rfl hident (Nat.zero_add _).symm hend
  rwa [List.nil_append, List.append_nil] at hspelled

/-- The check of a name accepts what the scanner takes as an identifier. -/
theorem isIdentifier_iff_takenWhole :
    Token.isIdentifier name = true ↔ TakenWhole name := by
  constructor
  · intro h
    refine ⟨name, ?_⟩
    rw [Scan.ofText, Scan.scanFrom_of_spelled (spelled_of_isIdentifier h)]
    rfl
  · rintro ⟨text, htokens⟩
    obtain ⟨before, run, rest, ⟨hname, hstart, hstop⟩, hrun, -⟩ :=
      (Scan.covers_ofText name.toList).tokens _ (htokens ▸ List.mem_singleton_self _)
    -- The token takes as many bytes as the whole name, so that none are left around it.
    have hlength := congrArg Text.byteLength hname
    rw [Text.byteLength_append, Text.byteLength_append] at hlength
    have hbefore : before = [] := by
      by_contra hne
      have := Text.byteLength_pos hne
      simp only at hstart
      omega
    have hrest : rest = [] := by
      by_contra hne
      have := Text.byteLength_pos hne
      simp only at hstart hstop
      omega
    obtain ⟨c, cs, rfl, hc, hcs⟩ := hrun.inside
    rw [hbefore, hrest, List.nil_append, List.append_nil] at hname
    rw [Token.isIdentifier, hname]
    exact (Bool.and_eq_true _ _).mpr ⟨hc, List.all_eq_true.mpr hcs⟩

/-! ## Lists of names -/

/-- The name at this position is no identifier for the scanner, or an earlier position has
it, too. -/
def IsFaulty (names : List String) (index : Nat) : Prop :=
  ∃ name, names[index]? = some name ∧
    (¬ TakenWhole name ∨ ∃ first < index, names[first]? = some name)

/-- The cause says what is wrong with the first faulty position. -/
inductive IsFirstFault (names : List String) : ParseError.Cause → Prop
  | illegal {index : Nat} {name : String} (hbefore : ∀ j < index, ¬ IsFaulty names j)
      (hname : names[index]? = some name) (h : ¬ TakenWhole name) :
    IsFirstFault names (.illegalArgumentName index name)
  /-- No position but `first` has the name earlier. -/
  | duplicated {index first : Nat} {name : String}
    (hbefore : ∀ j < index, ¬ IsFaulty names j)
      (hname : names[index]? = some name) (h : TakenWhole name) (hlt : first < index)
      (hfirst : names[first]? = some name)
      (honly : ∀ j < index, names[j]? = some name → j = first) :
    IsFirstFault names (.duplicatedArgumentName index first name)

/-- A valid list of names has no faulty position. -/
theorem Valid.not_isFaulty {seen rest : List String} (h : Valid seen) {index : Nat}
    (hindex : index < seen.length) : ¬ IsFaulty (seen ++ rest) index := by
  obtain ⟨hidentifiers, hnodup⟩ := h
  rintro ⟨name, hname, hfault⟩
  rw [List.getElem?_append_left hindex] at hname
  rcases hfault with hillegal | ⟨first, hlt, hfirst⟩
  · exact hillegal
      (isIdentifier_iff_takenWhole.mp (hidentifiers name (List.mem_of_getElem? hname)))
  · rw [List.getElem?_append_left (Nat.lt_trans hlt hindex)] at hfirst
    have heq : first = index :=
      (List.getElem?_inj (Nat.lt_trans hlt hindex) hnodup).mp (hfirst.trans hname.symm)
    omega

/-- The fault that is found behind valid names is about the first faulty position. -/
theorem isFirstFault_of_faultAfter {seen rest : List String} {cause : ParseError.Cause}
    (hseen : Valid seen) (h : faultAfter seen rest = some cause) :
    IsFirstFault (seen ++ rest) cause := by
  induction rest generalizing seen with
  | nil => cases h
  | cons name rest ih =>
    have hbefore : ∀ j < seen.length, ¬ IsFaulty (seen ++ name :: rest) j :=
      fun j hj => hseen.not_isFaulty hj
    have hname : (seen ++ name :: rest)[seen.length]? = some name := by simp
    rw [faultAfter] at h
    split at h
    · rename_i hidentifier
      split at h
      · rename_i first hfirst
        obtain rfl := Option.some.inj h
        obtain ⟨hlt, heq, -⟩ := List.idxOf?_eq_some_iff.mp hfirst
        have hat : seen[first]? = some name := List.getElem?_eq_some_iff.mpr ⟨hlt, heq⟩
        refine .duplicated hbefore hname
          (isIdentifier_iff_takenWhole.mp hidentifier) hlt ?_
          fun j hj hagain => ?_
        · rw [List.getElem?_append_left hlt]
          exact hat
        · rw [List.getElem?_append_left hj] at hagain
          exact (List.getElem?_inj hj hseen.2).mp (hagain.trans hat.symm)
      · rename_i hfirst
        have hnew : name ∉ seen := by
          rw [← List.isSome_idxOf?, hfirst]
          exact Bool.false_ne_true
        have hnext : Valid (seen ++ [name]) := by
          refine ⟨List.forall_mem_append.mpr ⟨hseen.1,
            List.forall_mem_singleton.mpr hidentifier⟩, ?_⟩
          exact List.nodup_append.mpr ⟨hseen.2, List.nodup_singleton name,
            fun a ha b hb heq => hnew (List.mem_singleton.mp hb ▸ heq ▸ ha)⟩
        have hfault := ih hnext h
        rwa [List.append_assoc] at hfault
    · rename_i hidentifier
      obtain rfl := Option.some.inj h
      exact .illegal hbefore hname fun htaken =>
        hidentifier (isIdentifier_iff_takenWhole.mpr htaken)

/-- The fault that is reported is about the first faulty name. -/
theorem isFirstFault_of_fault? {cause : ParseError.Cause}
    (h : fault? names = some cause) :
    IsFirstFault names cause :=
  isFirstFault_of_faultAfter ⟨fun _ hname => (List.not_mem_nil hname).elim, .nil⟩ h

theorem valid_iff_takenWhole :
    Valid names ↔ (∀ name ∈ names, TakenWhole name) ∧ names.Nodup := by
  simp only [Valid, isIdentifier_iff_takenWhole]

/-! ## Sources read against the names -/

/-- The name of a parameter is read as that parameter. -/
theorem parse_name (hnames : Valid names) {index : Nat}
    (hname : names[index]? = some name) (maxDepth : Nat) :
    Arena.parse name names maxDepth =
      .ok ⟨#[⟨.param index, ⟨0, Text.byteLength name.toList⟩⟩], names.length⟩ := by
  obtain ⟨hlt, rfl⟩ := List.getElem?_eq_some_iff.mp hname
  have hmem : names[index] ∈ names := List.getElem_mem hlt
  have hindex : names.idxOf? names[index] = some index :=
    Phrase.idxOf?_getElem hnames.2 hlt
  let span : Span := ⟨0, Text.byteLength names[index].toList⟩
  have hspells : (Phrase.product (.signed (.atom [] (.ident span names[index])))).Spells
      names[index] := ⟨_, spelled_of_isIdentifier (hnames.1 _ hmem)⟩
  have hread :
      (Phrase.product (.signed (.atom [] (.ident span names[index])))).read names maxDepth 0
        = .ok (.param span index) := by
    simp only [Phrase.read, hindex]
    rfl
  exact Arena.parse_eq_ok_iff.mpr
    ⟨_, Tree.parse_of_read hnames hspells (fun n hn => by cases hn) hread, rfl⟩

/-- What the check of a list of names comes to, for the sources that are read against
it. -/
structure Checked (names : List String) : Prop where
  /-- A source gets past the check exactly if the scanner takes every name as an
  identifier and no two of them are equal. -/
  passes : ∀ source maxDepth,
    (∀ e, Arena.parse source names maxDepth = .error e → e.cause.argument = none) ↔
      (∀ name ∈ names, TakenWhole name) ∧ names.Nodup
  /-- Otherwise every source is rejected for the first faulty name. -/
  rejects : ¬ ((∀ name ∈ names, TakenWhole name) ∧ names.Nodup) →
    ∃ cause, IsFirstFault names cause ∧
      ∀ source maxDepth,
        Arena.parse source names maxDepth = .error ⟨cause, source, .nowhere⟩
  /-- Every parameter of a list that passes can be referred to by its name. -/
  referable : (∀ name ∈ names, TakenWhole name) ∧ names.Nodup →
    ∀ index name, names[index]? = some name → ∀ maxDepth,
      Arena.parse name names maxDepth =
        .ok ⟨#[⟨.param index, ⟨0, Text.byteLength name.toList⟩⟩], names.length⟩

theorem parse_of_fault? {cause : ParseError.Cause} (h : fault? names = some cause)
    (source : String) (maxDepth : Nat) :
    Arena.parse source names maxDepth = .error ⟨cause, source, .nowhere⟩ :=
  Arena.parse_eq_error_iff.mpr (Tree.parse_eq_error_iff.mpr (Or.inl ⟨cause, h, rfl⟩))

/-- The check of parameter names agrees with the scanner, and reports the first faulty
name. -/
theorem checked (names : List String) : Checked names where
  passes source maxDepth := by
    rw [← valid_iff_takenWhole, ← fault?_eq_none_iff]
    constructor
    · intro h
      cases hfault : fault? names with
      | none => rfl
      | some cause =>
        exact absurd (h _ (parse_of_fault? hfault source maxDepth))
          (argument_ne_none_of_fault? hfault)
    · intro hfault e he
      rcases Tree.parse_eq_error_iff.mp (Arena.parse_eq_error_iff.mp he) with
        ⟨cause, hcause, -⟩ | ⟨-, v, hscan, rfl⟩
      · cases hfault.symm.trans hcause
      · exact Parse.argument_of_ofScan hscan
  rejects h := by
    rw [← valid_iff_takenWhole, ← fault?_eq_none_iff] at h
    obtain ⟨cause, hcause⟩ := Option.ne_none_iff_exists'.mp h
    exact ⟨cause, isFirstFault_of_fault? hcause, parse_of_fault? hcause⟩
  referable h _ _ hname := parse_name (valid_iff_takenWhole.mpr h) hname

/-- The repeated `x` stands in front of the number, which is therefore not what is
reported. -/
example : Arena.parse "$" ["x", "y", "x", "4", "y"] 0 =
    .error ⟨.duplicatedArgumentName 2 0 "x", "$", .nowhere⟩ := by
  decide +kernel

end Scope

end Abacus
