import Abacus.Report

set_option autoImplicit false

/-!
# What a report prints

Every line of a report is written out here, character by character.  An excerpt is printed
with just these lines, if nothing in it has to be filled up beyond the greatest width, and
not printed at all otherwise.

Main statements:

* `Excerpt.render?_of_fits`, `Excerpt.fits_of_render?`: what is printed of an excerpt.
* `ParseError.report?_of_fits`, `ParseError.report?_eq_none_iff`: the report of an error
  that is not about the name of a parameter.
-/

namespace Abacus

open Text

namespace Excerpt

/-! ## Lines -/

/-- The line of a report that says where the error is. -/
def locatorLine (width : Nat) (position : Position) : String :=
  .ofList (List.replicate width ' ' ++ ['-', '-', '>', ' '] ++ digits position.line ++
    [':'] ++ digits position.column ++ ['\n'])

/-- The line of a report with nothing but the gutter. -/
def gutterLine (width : Nat) : String :=
  .ofList (List.replicate width ' ' ++ [' ', '|', '\n'])

/-- The line of a report that shows a line of the source: its number with blanks in front
of it, the gutter, and the text if there is any. -/
def sourceLine (width number : Nat) (shown : List Char) : String :=
  .ofList (List.replicate (width - (digits number).length) ' ' ++ digits number ++
    [' ', '|'] ++ (if shown = [] then [] else ' ' :: shown) ++ ['\n'])

/-- The line of a report with carets. -/
def caretLine (width : Nat) (carets : List Char) : String :=
  .ofList (List.replicate width ' ' ++ [' ', '|', ' '] ++ carets ++ ['\n'])

/-- The line of a report with the help, if there is one. -/
def helpLine (width : Nat) : Option String → String
  | none => ""
  | some help =>
    .ofList (List.replicate width ' ' ++ " = help: ".toList ++ help.toList ++ ['\n'])

/-- The lines of a report for a row. -/
def rowLines (width : Nat) (row : Row) : String :=
  match row.marks with
  | none => sourceLine width row.number row.text
  | some marks =>
    sourceLine width row.number row.text ++
      caretLine width (List.replicate marks.indent ' ' ++ List.replicate marks.count '^')

/-- Nothing in an excerpt has to be filled up beyond the greatest width. -/
structure Fits (e : Excerpt) : Prop where
  width : e.width ≤ 65535
  indents : ∀ row ∈ e.rows, ∀ marks ∈ row.marks, marks.indent ≤ 65535

/-! ## Printing them -/

section

variable {width : Nat} {text margin content line : String}

theorem padded?_of_le (h : width ≤ widest) (text : String) :
    padded? width text =
      some (.ofList (List.replicate (width - text.length) ' ' ++ text.toList)) := by
  rw [padded?, if_pos h, String.ofList_append, String.ofList_toList]

theorem le_of_padded? (h : padded? width text = some line) : width ≤ widest := by
  rw [padded?] at h
  split at h
  · assumption
  · cases h

theorem marginLine?_of_le (h : width ≤ widest) (margin content : String) :
    marginLine? width margin content =
      some (.ofList (List.replicate (width - margin.length) ' ' ++ margin.toList ++
        content.toList ++ ['\n'])) := by
  rw [marginLine?, padded?_of_le h, Option.map_some]
  simp [String.append_assoc]

theorem le_of_marginLine? (h : marginLine? width margin content = some line) :
    width ≤ widest := by
  obtain ⟨filled, hfilled, -⟩ := Option.map_eq_some_iff.mp h
  exact le_of_padded? hfilled

theorem toList_decimal (n : Nat) : (decimal n).toList = digits n := by
  rw [decimal, String.toList_ofList]

theorem marginLine?_source (h : width ≤ widest) (number : Nat) (shown : List Char) :
    marginLine? width (decimal number)
        (if shown.isEmpty then " |" else " | " ++ String.ofList shown) =
      some (sourceLine width number shown) := by
  rw [marginLine?_of_le h, toList_decimal, decimal, String.length_ofList, sourceLine]
  cases shown <;> simp

theorem Row.render?_of_le {row : Row} (hwidth : width ≤ widest)
    (hindent : ∀ marks ∈ row.marks, marks.indent ≤ widest) :
    row.render? width = some (rowLines width row) := by
  simp only [Row.render?, marginLine?_source hwidth, rowLines]
  cases hmarks : row.marks with
  | none => rfl
  | some marks =>
    simp [padded?_of_le (hindent marks hmarks), marginLine?_of_le hwidth, caretLine]

theorem Row.le_of_render? {row : Row} {lines : String}
    (h : row.render? width = some lines) :
    ∀ marks ∈ row.marks, marks.indent ≤ widest := by
  intro marks hmarks
  rw [Option.mem_def] at hmarks
  simp only [Row.render?, hmarks, Option.bind_eq_bind, Option.bind_eq_some_iff] at h
  obtain ⟨source, -, indent, hindent, -⟩ := h
  exact le_of_padded? hindent

end

/-! ## Excerpts -/

section

variable {α β : Type} {f : α → Option β} {as : List α}

theorem mapM_eq_map {g : α → β} (h : ∀ a ∈ as, f a = some (g a)) :
    as.mapM f = some (as.map g) := by
  induction as with
  | nil => rfl
  | cons a as ih =>
    rw [List.forall_mem_cons] at h
    rw [List.mapM_cons, h.1, ih h.2]
    rfl

theorem exists_of_mapM {bs : List β} (h : as.mapM f = some bs) :
    ∀ a ∈ as, ∃ b, f a = some b := by
  induction as generalizing bs with
  | nil => simp
  | cons a as ih =>
    simp only [List.mapM_cons, Option.bind_eq_bind, Option.bind_eq_some_iff] at h
    obtain ⟨b, hb, rest, hrest, -⟩ := h
    exact List.forall_mem_cons.mpr ⟨⟨b, hb⟩, ih hrest⟩

end

variable {e : Excerpt}

/-- An excerpt that fits is printed line by line. -/
theorem render?_of_fits (h : e.Fits) :
    e.render? = some (locatorLine e.width e.position ++ gutterLine e.width ++
      String.join (e.rows.map (rowLines e.width))) := by
  have hrows : e.rows.mapM (·.render? e.width) = some (e.rows.map (rowLines e.width)) :=
    mapM_eq_map fun row hrow => Row.render?_of_le h.width (h.indents row hrow)
  simp [render?, hrows, marginLine?_of_le h.width, locatorLine, gutterLine,
    toList_decimal]

/-- An excerpt that is printed fits. -/
theorem fits_of_render? {rendered : String} (h : e.render? = some rendered) : e.Fits := by
  simp only [render?, Option.bind_eq_bind, Option.bind_eq_some_iff] at h
  obtain ⟨locator, hlocator, gutter, -, rows, hrows, -⟩ := h
  refine ⟨le_of_marginLine? hlocator, fun row hrow => ?_⟩
  obtain ⟨lines, hlines⟩ := exists_of_mapM hrows row hrow
  exact Row.le_of_render? hlines

end Excerpt

/-! ## Reports -/

namespace ParseError

variable {e : ParseError} {excerpt : Excerpt} {width : Nat}

theorem helpLine?_of_le (h : width ≤ Excerpt.widest) (e : ParseError) :
    e.helpLine? width = some (Excerpt.helpLine width e.cause.help) := by
  rw [helpLine?]
  cases e.cause.help with
  | none => rfl
  | some help => simp [Excerpt.marginLine?_of_le h, Excerpt.helpLine]

/-- An error about the name of a parameter has a report. -/
theorem exists_report_of_argument {argument : Nat × String}
    (h : e.cause.argument = some argument) : ∃ report, e.report? = some report := by
  have hhelp := helpLine?_of_le (show 1 ≤ Excerpt.widest by decide) e
  rw [report?, h]
  simp only [hhelp]
  exact ⟨_, rfl⟩

/-- The report of an error that is not about the name of a parameter. -/
theorem report?_of_fits (hargument : e.cause.argument = none)
    (hexcerpt : Excerpt.ofSpan? e.source.toList e.span = some excerpt)
    (hfits : excerpt.Fits) :
    e.report? = some (e.heading ++ (Excerpt.locatorLine excerpt.width excerpt.position ++
      Excerpt.gutterLine excerpt.width ++
      String.join (excerpt.rows.map (Excerpt.rowLines excerpt.width))) ++
      Excerpt.helpLine excerpt.width e.cause.help) := by
  rw [report?, hargument, hexcerpt]
  simp only [Excerpt.render?_of_fits hfits, helpLine?_of_le hfits.width,
    Option.bind_eq_bind, Option.bind_some]
  rfl

/-- An error that is not about the name of a parameter has a report just if its excerpt
fits. -/
theorem report?_eq_none_iff (hargument : e.cause.argument = none)
    (hexcerpt : Excerpt.ofSpan? e.source.toList e.span = some excerpt) :
    e.report? = none ↔ ¬ excerpt.Fits := by
  constructor
  · intro hnone hfits
    rw [report?_of_fits hargument hexcerpt hfits] at hnone
    cases hnone
  · intro hfits
    rw [report?, hargument, hexcerpt]
    cases hrender : excerpt.render? with
    | none => simp [hrender]
    | some rendered => exact absurd (Excerpt.fits_of_render? hrender) hfits

end ParseError

end Abacus
