import Abacus.Proofs.Carets

set_option autoImplicit false

/-!
# Reports of errors

An error has a report, unless its span begins inside a character or an excerpt of its
source would have to be filled up beyond the greatest width.  For the errors of the reader
neither happens but if more than 65535 characters stand in front of the error in its line.
The report then prints the lines that the span touches, with carets under just the
characters in the span.  The first caret stands in the column of the locator, but for one
case: the column counts the carriage returns at the end of a source, and they are not
shown.

Main statements:

* `ParseError.exists_excerpt`: which errors have a report.
* `Arena.excerpt_of_parse`: the report of an error whose span is not empty.
* `Arena.locator_of_parse`: the first caret and the locator.
-/

namespace Abacus

open Text

/-! ## Blanks -/

theorem byteLength_blanks (n : Nat) : byteLength (List.replicate n ' ') = n := by
  rw [Scan.byteLength_of_codes, List.length_replicate]
  intro c hc
  obtain rfl := List.eq_of_mem_replicate hc
  decide

theorem layout_blanks (n : Nat) : Layout false false (List.replicate n ' ') := by
  induction n with
  | zero => exact .nil false
  | succ n ih => exact .blank rfl ih

/-! ## Errors made by hand -/

namespace ParseError

variable {e : ParseError} {excerpt : Excerpt}

/-- The report of an error with the first row of its excerpt written out. -/
theorem report?_of_opens {source : List Char} {l : Line} {indent count : Nat}
    {rows : List Excerpt.Row} (hargument : e.cause.argument = none)
    (hexcerpt : Excerpt.ofSpan? e.source.toList e.span = some excerpt)
    (hfits : excerpt.Fits) (hopens : excerpt.Opens source l indent count rows) :
    e.report? = some (e.heading ++ (Excerpt.locatorLine excerpt.width excerpt.position ++
      Excerpt.gutterLine excerpt.width ++
      (Excerpt.sourceLine excerpt.width l.number (Excerpt.trimReturns l.text) ++
        Excerpt.caretLine excerpt.width
          (List.replicate indent ' ' ++ '^' :: List.replicate count '^')) ++
      (String.join (rows.map (Excerpt.rowLines excerpt.width)) ++
        Excerpt.helpLine excerpt.width e.cause.help))) := by
  have hrow : Excerpt.rowLines excerpt.width
      ⟨l.number, Excerpt.trimReturns l.text, some ⟨indent, count + 1⟩⟩ =
        Excerpt.sourceLine excerpt.width l.number (Excerpt.trimReturns l.text) ++
          Excerpt.caretLine excerpt.width
            (List.replicate indent ' ' ++ '^' :: List.replicate count '^') := rfl
  rw [report?_of_fits hargument hexcerpt hfits, hopens.rows, List.map_cons,
    String.join_cons, hrow]
  simp only [String.append_assoc]

/-- An error has no report if more than 65535 characters stand in front of it in its
line. -/
theorem report?_eq_none_of_lexeme {position : Position}
    (hargument : e.cause.argument = none) (hspan : e.span.Proper e.source.toList)
    (hlexeme : LexemeAt e.source.toList e.span.start)
    (hposition : position? e.source.toList e.span.start = some position)
    (hcolumn : 65536 < position.column) : e.report? = none := by
  obtain ⟨excerpt, ls, hexcerpt, hshows⟩ := Excerpt.exists_shows hspan
  obtain ⟨l, indent, count, rows, hopens, hindent⟩ := hshows.exists_opens hspan hlexeme
  obtain rfl := Option.some.inj (hposition.symm.trans hshows.position)
  rw [report?_eq_none_iff hargument hexcerpt, hshows.fits_iff hspan.start hopens.rows]
  rintro ⟨-, hfirst⟩
  have hle : indent ≤ 65535 := hfirst ⟨indent, count + 1⟩ rfl
  omega

/-- There is no report of an illegal character behind more than 65535 blanks. -/
theorem report?_blanks {n : Nat} (h : 65535 < n) :
    report? ⟨.illegalCharacter '$', .ofList (List.replicate n ' ' ++ ['$']), ⟨n, n + 1⟩⟩ =
      none := by
  generalize hblanks : List.replicate n ' ' = blanks
  have hlength : byteLength blanks = n := hblanks ▸ byteLength_blanks n
  have hcount : blanks.length = n := hblanks ▸ List.length_replicate
  have hline : '\n' ∉ blanks := by
    rw [← hblanks]
    simp
  have hsource : (String.ofList (blanks ++ ['$'])).toList = blanks ++ ['$'] :=
    String.toList_ofList
  have hposition : position? ([] ++ blanks ++ ['$']) (byteLength ([] ++ blanks)) =
      some ⟨1, blanks.length + 1⟩ := position?_eq .nil hline
  rw [List.nil_append, hlength, hcount, ← hsource] at hposition
  have hspan : Span.Proper ⟨n, n + 1⟩ (blanks ++ ['$']) := by
    refine ⟨Nat.lt_succ_self n, isBoundary_iff.mpr ⟨blanks, ['$'], rfl, hlength.symm⟩, ?_⟩
    refine isBoundary_iff.mpr ⟨blanks ++ ['$'], [], (List.append_nil _).symm, ?_⟩
    rw [byteLength_append, hlength]
    rfl
  have hlexeme : LexemeAt (blanks ++ ['$']) n := ⟨blanks, '$', [], rfl, hlength.symm, rfl⟩
  rw [← hsource] at hspan hlexeme
  exact report?_eq_none_of_lexeme rfl hspan hlexeme hposition (Nat.succ_lt_succ h)

end ParseError

/-- An error whose span does not begin inside a character of its source has an excerpt: no
cut and no difference fails, and the rows, each of them made in a round of its own, are
not more than the source has lines.  It has a report, too, unless the excerpt has to be
filled up beyond the greatest width. -/
theorem ParseError.exists_excerpt (e : ParseError)
    (hstart : IsBoundary e.source.toList e.span.start ∨
      byteLength e.source.toList ≤ e.span.start) :
    ∃ excerpt, Excerpt.ofSpan? e.source.toList e.span = some excerpt ∧
      excerpt.rows.length ≤ (lines e.source.toList).length ∧
      (e.report? = none ↔ e.cause.argument = none ∧ ¬ excerpt.Fits) := by
  obtain ⟨excerpt, ls, start, stop, last, hexcerpt, hshows⟩ :=
    Excerpt.exists_shows_of_start hstart
  refine ⟨excerpt, hexcerpt, hshows.length_rows_le, ?_⟩
  cases hargument : e.cause.argument with
  | none => simpa using report?_eq_none_iff hargument hexcerpt
  | some argument =>
    obtain ⟨report, hreport⟩ := exists_report_of_argument hargument
    simp [hreport]

/-- A reversed span, of which the end lies inside a character, in front of a carriage
return. -/
theorem ParseError.exists_excerpt_reversed :
    IsBoundary "x\né\r\ny".toList 5 ∧
      ∃ excerpt, Excerpt.ofSpan? "x\né\r\ny".toList ⟨5, 3⟩ = some excerpt ∧
        excerpt.rows.length ≤ (lines "x\né\r\ny".toList).length ∧
        (report? ⟨.divisionByZero, "x\né\r\ny", ⟨5, 3⟩⟩ = none ↔
          Cause.divisionByZero.argument = none ∧ ¬ excerpt.Fits) := by
  have hstart : IsBoundary "x\né\r\ny".toList 5 := by decide
  exact ⟨hstart, exists_excerpt ⟨.divisionByZero, "x\né\r\ny", ⟨5, 3⟩⟩ (Or.inl hstart)⟩

/-- An illegal character behind 65536 blanks has no report. -/
theorem ParseError.exists_excerpt_blanks :
    IsBoundary (List.replicate 65536 ' ' ++ ['$']) 65536 ∧
      report? ⟨.illegalCharacter '$', .ofList (List.replicate 65536 ' ' ++ ['$']),
        ⟨65536, 65537⟩⟩ = none := by
  have hlength : byteLength (List.replicate 65536 ' ') = 65536 := byteLength_blanks _
  exact ⟨isBoundary_iff.mpr ⟨_, _, rfl, hlength.symm⟩, report?_blanks (by decide)⟩

/-- If the span of an error is not empty, the report prints the source lines that the span
touches, and under each of them carets under just the characters in the span.  There is no
report if more than 65535 characters stand in front of the span in its line. -/
theorem Arena.excerpt_of_parse {source : String} {names : List String} {maxDepth : Nat}
    {e : ParseError} (h : Arena.parse source names maxDepth = .error e)
    (hargument : e.cause.argument = none) (hspan : e.span.start < e.span.stop)
    (hsize : byteLength source.toList ≤ UInt64.size) :
    ∃ position width ls printed, position? source.toList e.span.start = some position ∧
      Excerpt.Prints source.toList e.span width ls printed ∧
      e.report? =
        if position.column ≤ 65536 then
          some (e.heading ++
            (Excerpt.locatorLine width position ++ Excerpt.gutterLine width ++
              String.join printed) ++ Excerpt.helpLine width e.cause.help)
        else none := by
  obtain ⟨rfl, ⟨hproper, hlexeme⟩ | hpoint⟩ := span_of_parse h hargument
  · obtain ⟨excerpt, ls, hexcerpt, hshows⟩ := Excerpt.exists_shows hproper
    obtain ⟨l, indent, count, rows, hopens, hindent⟩ :=
      hshows.exists_opens hproper hlexeme
    refine ⟨excerpt.position, excerpt.width, ls, _, hshows.position,
      hshows.prints hproper, ?_⟩
    split
    · rename_i hcolumn
      have hfits := (hopens.fits_iff hshows hproper.start hsize).mpr (by omega)
      exact ParseError.report?_of_fits hargument hexcerpt hfits
    · rename_i hcolumn
      exact ParseError.report?_eq_none_of_lexeme hargument hproper hlexeme hshows.position
        (Nat.lt_of_not_le hcolumn)
  · rw [hpoint] at hspan
    exact absurd hspan (Nat.lt_irrefl _)

/-- A span over two lines, of which the first one ends with a carriage return and the
second one with a letter of two bytes. -/
theorem Arena.excerpt_of_parse_group :
    ∃ e, Arena.parse "1 + (x\r\n# é" ["x"] 1 = .error e ∧ e.cause.argument = none ∧
      e.span.start < e.span.stop ∧ byteLength "1 + (x\r\n# é".toList ≤ UInt64.size ∧
      ∃ position width ls printed,
        position? "1 + (x\r\n# é".toList e.span.start = some position ∧
        Excerpt.Prints "1 + (x\r\n# é".toList e.span width ls printed ∧
        e.report? =
          if position.column ≤ 65536 then
            some (e.heading ++ (Excerpt.locatorLine width position ++
              Excerpt.gutterLine width ++ String.join printed) ++
              Excerpt.helpLine width e.cause.help)
          else none := by
  have herror : Arena.parse "1 + (x\r\n# é" ["x"] 1 =
      .error ⟨.expectedCloseParen ⟨4, 5⟩ "end of input", "1 + (x\r\n# é", ⟨4, 12⟩⟩ := by
    decide +kernel
  have hsize : byteLength "1 + (x\r\n# é".toList ≤ UInt64.size := by decide +kernel
  exact ⟨_, herror, rfl, by decide, hsize, excerpt_of_parse herror rfl (by decide) hsize⟩

/-- The reader finds an illegal character behind blanks. -/
theorem Arena.parse_blanks (n : Nat) :
    Arena.parse (.ofList (List.replicate n ' ' ++ ['$'])) [] defaultMaxDepth =
      .error ⟨.illegalCharacter '$', .ofList (List.replicate n ' ' ++ ['$']),
        ⟨n, n + 1⟩⟩ := by
  have hno : NoLayout ['$'] := by
    intro c hc
    obtain rfl := Option.some.inj hc
    decide
  have hsplit := Scan.splitLayout_of_layout (layout_blanks n) (Or.inr ⟨rfl, hno⟩)
  have hscan : Scan.ofText (List.replicate n ' ' ++ ['$']) =
      ⟨[], .error ⟨.illegalCharacter '$', ⟨n, n + 1⟩⟩⟩ := by
    refine Scan.scanFrom_of_violation ?_
    simp only [Scan.next, hsplit, byteLength_blanks, Nat.zero_add]
    rfl
  have hread : Parse.ofScan [] defaultMaxDepth
      (Scan.ofText (String.ofList (List.replicate n ' ' ++ ['$'])).toList) =
        .error ⟨.illegalCharacter '$', ⟨n, n + 1⟩⟩ := by
    rw [String.toList_ofList, hscan]
    rfl
  exact parse_eq_error_iff.mpr (Tree.parse_eq_error_iff.mpr (Or.inr ⟨rfl, _, hread, rfl⟩))

/-- The error about an illegal character behind 65536 blanks has no report. -/
theorem Arena.excerpt_of_parse_blanks :
    ∃ e,
      Arena.parse (.ofList (List.replicate 65536 ' ' ++ ['$'])) [] defaultMaxDepth =
        .error e ∧
      e.cause.argument = none ∧ e.span.start < e.span.stop ∧ e.report? = none :=
  ⟨_, parse_blanks 65536, rfl, by decide, ParseError.report?_blanks (by decide)⟩

/-- The excerpt of an error: its first row, if it fits, and how far the first caret is to
the right. -/
theorem Arena.exists_opens_of_parse {source : String} {names : List String}
    {maxDepth : Nat} {e : ParseError} (h : Arena.parse source names maxDepth = .error e)
    (hargument : e.cause.argument = none)
    (hsize : byteLength source.toList ≤ UInt64.size) :
    ∃ excerpt l indent count rows,
      Excerpt.ofSpan? e.source.toList e.span = some excerpt ∧
      position? source.toList e.span.start = some excerpt.position ∧
      excerpt.Opens source.toList l indent count rows ∧
      (excerpt.position.column ≤ 65536 → excerpt.Fits) ∧
      if e.span.start = e.span.stop ∧ source.toList.getLast? = some '\r' then
        indent = (Excerpt.trimReturns l.text).length
      else indent + 1 = excerpt.position.column := by
  obtain ⟨rfl, ⟨hproper, hlexeme⟩ | hpoint⟩ := span_of_parse h hargument
  · obtain ⟨excerpt, ls, hexcerpt, hshows⟩ := Excerpt.exists_shows hproper
    obtain ⟨l, indent, count, rows, hopens, hindent⟩ :=
      hshows.exists_opens hproper hlexeme
    refine ⟨excerpt, l, indent, count, rows, hexcerpt, hshows.position, hopens,
      fun hcolumn => ?_, ?_⟩
    · exact (hopens.fits_iff hshows hproper.start hsize).mpr (by omega)
    · rw [if_neg fun hend => Nat.ne_of_lt hproper.lt hend.1]
      exact hindent
  · obtain ⟨excerpt, ls, hexcerpt, hshows⟩ := Excerpt.exists_shows_end e.source.toList
    obtain ⟨l, rows, hopens, hle, hindent⟩ := hshows.exists_opens_end
    rw [← hpoint] at hexcerpt
    refine ⟨excerpt, l, _, 0, rows, hexcerpt, hpoint ▸ hshows.position, hopens,
      fun hcolumn => ?_, ?_⟩
    · exact (hopens.fits_iff hshows (isBoundary_byteLength _) hsize).mpr (by omega)
    · split
      · rfl
      · rename_i hreturn
        exact hindent fun hlast => hreturn ⟨by rw [hpoint]; rfl, hlast⟩

/-- If at most 65535 characters stand in front of an error in its line, the first caret
stands under the line of the locator, in the column of the locator.  The end of a source
with a carriage return in front of it is the exception: the caret stands behind the last
character that is shown. -/
theorem Arena.locator_of_parse {source : String} {names : List String} {maxDepth : Nat}
    {e : ParseError} (h : Arena.parse source names maxDepth = .error e)
    (hargument : e.cause.argument = none)
    (hsize : byteLength source.toList ≤ UInt64.size) :
    ∃ position width l shown indent carets rest,
      position? source.toList e.span.start = some position ∧
      l ∈ numbered source.toList ∧ l.number = position.line ∧ l.ShownAs shown ∧
      (position.column ≤ 65536 →
        e.report? = some (e.heading ++ (Excerpt.locatorLine width position ++
          Excerpt.gutterLine width ++ (Excerpt.sourceLine width l.number shown ++
            Excerpt.caretLine width (List.replicate indent ' ' ++ '^' :: carets)) ++
              rest))) ∧
      if e.span.start = e.span.stop ∧ source.toList.getLast? = some '\r' then
        indent = shown.length
      else indent + 1 = position.column := by
  obtain ⟨excerpt, l, indent, count, rows, hexcerpt, hposition, hopens, hfits, hindent⟩ :=
    exists_opens_of_parse h hargument hsize
  exact ⟨excerpt.position, excerpt.width, l, Excerpt.trimReturns l.text, indent,
    List.replicate count '^', _, hposition, hopens.mem, hopens.line,
    Excerpt.shownAs_trimReturns l,
    fun hcolumn => ParseError.report?_of_opens hargument hexcerpt (hfits hcolumn) hopens,
    hindent⟩

/-- A carriage return in front of a line feed, and a character of two bytes in the line of
the error. -/
theorem Arena.locator_of_parse_second_line :
    ∃ e, Arena.parse "1 +\r\n\r(x + é" ["x"] 1 = .error e ∧ e.cause.argument = none ∧
      byteLength "1 +\r\n\r(x + é".toList ≤ UInt64.size ∧
      ∃ position width l shown indent carets rest,
        position? "1 +\r\n\r(x + é".toList e.span.start = some position ∧
        l ∈ numbered "1 +\r\n\r(x + é".toList ∧ l.number = position.line ∧
          l.ShownAs shown ∧
        (position.column ≤ 65536 →
          e.report? = some (e.heading ++ (Excerpt.locatorLine width position ++
            Excerpt.gutterLine width ++ (Excerpt.sourceLine width l.number shown ++
              Excerpt.caretLine width (List.replicate indent ' ' ++ '^' :: carets)) ++
                rest))) ∧
        if e.span.start = e.span.stop ∧ "1 +\r\n\r(x + é".toList.getLast? = some '\r' then
          indent = shown.length
        else indent + 1 = position.column := by
  have herror : Arena.parse "1 +\r\n\r(x + é" ["x"] 1 =
      .error ⟨.illegalCharacter 'é', "1 +\r\n\r(x + é", ⟨11, 13⟩⟩ := by
    decide +kernel
  have hsize : byteLength "1 +\r\n\r(x + é".toList ≤ UInt64.size := by decide +kernel
  exact ⟨_, herror, rfl, hsize, locator_of_parse herror rfl hsize⟩

/-- With a carriage return at the end of the source, three blanks stand in front of the
caret under the fifth column. -/
theorem Arena.locator_of_parse_return :
    ∃ e, Arena.parse "1 +\r" [] 1 = .error e ∧ e.cause.argument = none ∧
      position? "1 +\r".toList e.span.start = some ⟨1, 5⟩ ∧
      e.report? = some
        (e.heading ++ (Excerpt.locatorLine 1 ⟨1, 5⟩ ++ Excerpt.gutterLine 1 ++
        (Excerpt.sourceLine 1 1 "1 +".toList ++
          Excerpt.caretLine 1 (List.replicate 3 ' ' ++ ['^'])))) ∧
      e.report? ≠ some
        (e.heading ++ (Excerpt.locatorLine 1 ⟨1, 5⟩ ++ Excerpt.gutterLine 1 ++
        (Excerpt.sourceLine 1 1 "1 +".toList ++
          Excerpt.caretLine 1 (List.replicate (5 - 1) ' ' ++ ['^'])))) := by
  have herror : Arena.parse "1 +\r" [] 1 =
      .error ⟨.illegalToken "expression" "end of input", "1 +\r", ⟨4, 4⟩⟩ := by
    decide +kernel
  refine ⟨_, herror, rfl, ?_, ?_, ?_⟩ <;> decide +kernel

end Abacus
