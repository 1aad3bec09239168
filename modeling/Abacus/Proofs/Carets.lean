import Mathlib.Algebra.Group.Nat.Defs
import Abacus.Proofs.Beginnings
import Abacus.Proofs.Excerpt

set_option autoImplicit false

/-!
# What an excerpt prints

The carets of a row are computed from byte offsets, cut to the part of the line that is
shown.  Here they are found to stand under the characters that the span covers, and the
rows of an excerpt to be those of the lines that the span touches.  The first caret stands
in the column of the locator, but for one case: the column counts the carriage returns at
the end of a source, and they are not shown.

Main statements:

* `Excerpt.Divides.inside_iff`: which characters of a line a span covers, by the part of
  the line in front of the span and the part in it.
* `Excerpt.printed_row`: what is printed for a line.
* `Excerpt.Shows.prints`: what is printed for all the lines that an excerpt shows.
* `Excerpt.Shows.exists_opens`, `Excerpt.Shows.exists_opens_end`: where the first caret
  stands.
* `Excerpt.Opens.fits_iff`: an excerpt fits just if the first caret is not too far to the
  right.
-/

namespace Abacus

namespace Text

theorem length_digits_le {m n : Nat} (h : m ≤ n) :
    (digits m).length ≤ (digits n).length := by
  induction n using digits.induct generalizing m with
  | case1 n hn =>
    rw [digits.eq_def m, digits.eq_def n, if_pos hn, if_pos (Nat.lt_of_le_of_lt h hn)]
    exact Nat.le_refl _
  | case2 n hn ih =>
    rw [digits.eq_def m, digits.eq_def n, if_neg hn, List.length_append]
    split
    · exact Nat.le_add_left _ _
    · rw [List.length_append]
      exact Nat.add_le_add_right (ih (Nat.div_le_div_right h)) _

/-- A number below a power of ten has no more digits than the exponent says. -/
theorem length_digits_le_of_lt {n k : Nat} (hk : 0 < k) (h : n < 10 ^ k) :
    (digits n).length ≤ k := by
  induction n using digits.induct generalizing k with
  | case1 n hn =>
    rw [digits, if_pos hn]
    exact hk
  | case2 n hn ih =>
    obtain ⟨k, rfl⟩ := Nat.exists_eq_add_one_of_ne_zero (Nat.ne_of_gt hk)
    have hpos : 0 < k := by
      refine Nat.pos_of_ne_zero ?_
      rintro rfl
      exact hn h
    rw [digits, if_neg hn, List.length_append]
    exact Nat.succ_le_succ
      (ih hpos (Nat.div_lt_of_lt_mul (by rwa [Nat.mul_comm, ← Nat.pow_succ])))

end Text

open Text

namespace Text.Line

/-- The span covers the character at a place in the line. -/
def Inside (l : Line) (span : Span) (i : Nat) : Prop :=
  span.start ≤ l.start + byteLength (l.text.take i) ∧
    l.start + byteLength (l.text.take (i + 1)) ≤ span.stop

/-- What is shown of a line is all of it but the carriage returns at its end. -/
structure ShownAs (l : Line) (shown : List Char) : Prop where
  returns : ∃ k, l.text = shown ++ List.replicate k '\r'
  getLast? : ∀ c ∈ shown.getLast?, c ≠ '\r'

end Text.Line

namespace Excerpt

variable {source : List Char} {span : Span} {width : Nat} {l : Line}

/-! ## Printed lines -/

/-- What a report prints for a line of the source: the line as it is shown and, if the
span covers any character of that, carets under just these characters. -/
inductive Printed (span : Span) (width : Nat) (l : Line) : String → Prop
  | unmarked {shown : List Char} (hshown : l.ShownAs shown)
    (hnone : ∀ i < shown.length, ¬ l.Inside span i) :
    Printed span width l (sourceLine width l.number shown)
  | marked {shown carets : List Char} (hshown : l.ShownAs shown)
    (hsome : ∃ i < shown.length, l.Inside span i)
    (hcarets : ∀ i, carets[i]? = some '^' ↔ i < shown.length ∧ l.Inside span i)
    (hblanks : ∀ c ∈ carets, c = ' ' ∨ c = '^') (hlast : carets.getLast? = some '^') :
    Printed span width l (sourceLine width l.number shown ++ caretLine width carets)

/-- A report prints lines of a source for a span that is not empty: the consecutive ones
from the line that holds the first byte of the span up to the line that holds the last
one.  Their numbers are aligned to the number of the last line. -/
structure Prints (source : List Char) (span : Span) (width : Nat) (ls : List Line)
    (printed : List String) : Prop where
  consecutive : ∃ above below, numbered source = above ++ ls ++ below
  first : ∃ l, ls.head? = some l ∧ l.Holds span.start
  final : ∃ l, ls.getLast? = some l ∧ l.Holds (span.stop - 1) ∧
    width = (digits l.number).length
  aligned : ∀ l ∈ ls, (digits l.number).length ≤ width
  printed : List.Forall₂ (Printed span width) ls printed

/-! ## Parts of a line -/

/-- A span divides what is shown of a line into a part in front of the span, one in it and
the rest. -/
structure Divides (span : Span) (lineStart : Nat) (shown indented run rest : List Char) :
    Prop where
  text : shown = indented ++ run ++ rest
  start : byteLength indented = min (span.start - lineStart) (byteLength shown)
  stop : byteLength (indented ++ run) = min (span.stop - lineStart) (byteLength shown)

section Divides

variable {shown indented run rest : List Char} {lineStart : Nat}

/-- The carets under a line are as many as there are characters in the span. -/
theorem Divides.markCount_eq (h : Divides span lineStart shown indented run rest)
    (hlt : span.start < span.stop) :
    markCount span.start span.stop lineStart shown = run.length := by
  obtain ⟨htext, hstart, hstop⟩ := h
  have hlength := congrArg byteLength htext
  rw [byteLength_append, byteLength_append] at hlength
  rw [byteLength_append] at hstop
  rw [markCount, if_neg (Nat.ne_of_gt hlt)]
  by_cases hreached : span.start - lineStart ≤ byteLength shown
  · have hslice : slice? shown (span.start - lineStart)
        (min span.stop (lineStart + byteLength shown) - lineStart) = some run :=
      slice?_eq_some_iff.mpr ⟨indented, rest, htext, by omega, by omega⟩
    rw [hslice]
    rfl
  · -- The span begins among the carriage returns that are not shown.
    obtain rfl : run = [] := by
      by_contra hne
      have hpos := byteLength_pos hne
      omega
    rw [slice?, if_neg (by omega)]
    rfl

/-- The span covers just the characters of the part in the span. -/
theorem Divides.inside_iff {returns : List Char}
    (h : Divides span l.start shown indented run rest) (htext : l.text = shown ++ returns)
    {i : Nat} (hi : i < shown.length) :
    l.Inside span i ↔ indented.length ≤ i ∧ i < indented.length + run.length := by
  have hnext : i + 1 ≤ shown.length := hi
  have hcut (j : Nat) : shown.take j ++ shown.drop j = (indented ++ run) ++ rest := by
    rw [List.take_append_drop, h.text]
  have hfront :
      byteLength indented ≤ byteLength (shown.take i) ↔ indented.length ≤ i := by
    rw [byteLength_le_iff ((hcut i).trans (List.append_assoc _ _ _)),
      List.length_take_of_le (Nat.le_of_lt hi)]
  have hback : byteLength (shown.take (i + 1)) ≤ byteLength (indented ++ run) ↔
      i + 1 ≤ indented.length + run.length := by
    rw [byteLength_le_iff (hcut (i + 1)).symm, List.length_take_of_le hnext,
      List.length_append]
  have hshown : byteLength (shown.take i) < byteLength (shown.take (i + 1)) ∧
      byteLength (shown.take (i + 1)) ≤ byteLength shown := by
    constructor
    · rw [List.take_succ_eq_append_getElem hi, byteLength_append]
      exact Nat.lt_add_of_pos_right (byteLength_pos (List.cons_ne_nil _ _))
    · rw [byteLength_le_iff (b := []) (v := shown.drop (i + 1)) (by simp),
        List.length_take_of_le hnext]
      exact hnext
  have hstart := h.start
  have hstop := h.stop
  rw [Line.Inside, htext, List.take_append_of_le_length (Nat.le_of_lt hi),
    List.take_append_of_le_length hnext, ← hfront, Nat.lt_iff_add_one_le, ← hback]
  omega

end Divides

/-! ## Rows -/

/-- The row of a line for a span that is not empty. -/
theorem exists_divides (hl : l ∈ numbered source) (hspan : span.Proper source) :
    ∃ indented run rest, Divides span l.start (trimReturns l.text) indented run rest ∧
      row? span.start span.stop l.start l.number l.text =
        some ⟨l.number, trimReturns l.text,
          if run.length = 0 then none else some ⟨indented.length, run.length⟩⟩ := by
  obtain ⟨before, behind, hsource, hbefore, -⟩ := exists_cut_of_mem hl
  rw [Nat.zero_add] at hbefore
  obtain ⟨indented, rest, hshown, hstart, hrow⟩ :=
    row?_eq hsource hspan.start span.stop l.number
  obtain ⟨⟨k, hreturns⟩, -⟩ := trimReturns_spec l.text
  have hboundary := hspan.stop
  rw [hsource, hreturns, List.append_assoc] at hboundary
  obtain ⟨upto, rest', hshown', hstop⟩ := isBoundary_iff.mp hboundary.clip
  have hle : byteLength indented ≤ byteLength upto := by
    have hlt := hspan.lt
    omega
  obtain ⟨run, rfl, -⟩ := exists_append_of_le (hshown'.symm.trans hshown) hle
  rw [← hbefore] at hstart hstop hrow
  have hdivides : Divides span l.start (trimReturns l.text) indented run rest' :=
    ⟨hshown', hstart, hstop.symm⟩
  rw [hdivides.markCount_eq hspan.lt] at hrow
  exact ⟨indented, run, rest', hdivides, hrow⟩

theorem shownAs_trimReturns (l : Line) : l.ShownAs (trimReturns l.text) :=
  ⟨(trimReturns_spec l.text).1, (trimReturns_spec l.text).2⟩

theorem getElem?_carets (indent count i : Nat) :
    (List.replicate indent ' ' ++ List.replicate count '^')[i]? = some '^' ↔
      indent ≤ i ∧ i < indent + count := by
  rw [List.getElem?_append, List.length_replicate, List.getElem?_replicate,
    List.getElem?_replicate]
  split
  · simp
    omega
  · simp
    omega

/-- The row of a line prints the line and the carets under the characters in the span. -/
theorem printed_row {row : Row} (hl : l ∈ numbered source) (hspan : span.Proper source)
    (hrow : row? span.start span.stop l.start l.number l.text = some row) (width : Nat) :
    Printed span width l (rowLines width row) := by
  obtain ⟨indented, run, rest, hdivides, hrow'⟩ := exists_divides hl hspan
  obtain rfl := Option.some.inj (hrow.symm.trans hrow')
  have hshown := shownAs_trimReturns l
  obtain ⟨k, hreturns⟩ := hshown.returns
  have hinside {i : Nat} (hi : i < (trimReturns l.text).length) :=
    hdivides.inside_iff hreturns hi
  have hlength := congrArg List.length hdivides.text
  rw [List.length_append, List.length_append] at hlength
  split
  · rename_i hnone
    refine .unmarked hshown fun i hi h => ?_
    have hrange := (hinside hi).mp h
    omega
  · rename_i hsome
    show Printed span width l (sourceLine width l.number (trimReturns l.text) ++
      caretLine width
      (List.replicate indented.length ' ' ++ List.replicate run.length '^'))
    refine .marked hshown ⟨indented.length, by omega, (hinside (by omega)).mpr (by omega)⟩
      (fun i => ?_) (fun c hc => ?_) ?_
    · rw [getElem?_carets]
      constructor
      · intro hrange
        exact ⟨by omega, (hinside (by omega)).mpr hrange⟩
      · rintro ⟨hi, h⟩
        exact (hinside hi).mp h
    · exact (List.mem_append.mp hc).imp List.eq_of_mem_replicate List.eq_of_mem_replicate
    · rw [List.getLast?_append, List.getLast?_replicate, if_neg hsome]
      rfl

/-! ## Excerpts -/

/-- The excerpt for a span that is not empty. -/
theorem exists_shows (hspan : span.Proper source) :
    ∃ e ls, ofSpan? source span = some e ∧
      Shows source span.start span.stop (span.stop - 1) e ls := by
  have hstart : min span.start (byteLength source) = span.start :=
    Nat.min_eq_left hspan.start.le
  have hstop : max span.start (min span.stop (byteLength source)) = span.stop := by
    rw [Nat.min_eq_left hspan.stop.le, Nat.max_eq_right (Nat.le_of_lt hspan.lt)]
  have hcut : IsBoundary source (min span.start (byteLength source)) := by
    rw [hstart]
    exact hspan.start
  have h := exists_ofSpan? hcut rfl rfl
  rwa [hstart, hstop, if_pos hspan.lt] at h

/-- What a report prints for the lines that an excerpt shows. -/
theorem Shows.prints {e : Excerpt} {ls : List Line}
    (h : Shows source span.start span.stop (span.stop - 1) e ls)
    (hspan : span.Proper source) :
    Prints source span e.width ls (e.rows.map (rowLines e.width)) := by
  obtain ⟨first, head, tail, hfirst, htext, hstart, -⟩ := h.first
  obtain ⟨final, hfinal, hholds, hwidth⟩ := h.final
  constructor
  case consecutive => exact h.consecutive
  case first =>
    refine ⟨first, hfirst, ?_⟩
    rw [hstart, Line.Holds, Line.stop, htext, byteLength_append]
    omega
  case final => exact ⟨final, hfinal, hholds, hwidth⟩
  case aligned =>
    intro l hl
    rw [hwidth]
    exact length_digits_le (h.number_le hfinal hl)
  case printed =>
    rw [List.forall₂_map_right_iff]
    have hrows := (List.forall₂_and_left ls e.rows).mpr ⟨fun l => h.mem_numbered, h.rows⟩
    exact hrows.imp fun _ _ hrow => printed_row hrow.1 hspan hrow.2 _

/-! ## First rows -/

/-- The first row is the one of the line in which the span begins. -/
theorem Shows.exists_first {start stop last : Nat} {e : Excerpt} {ls : List Line}
    (h : Shows source start stop last e ls) :
    ∃ l head tail row rows, l ∈ numbered source ∧ l.text = head ++ tail ∧
      start = l.start + byteLength head ∧ e.position = ⟨l.number, head.length + 1⟩ ∧
      e.rows = row :: rows ∧ row? start stop l.start l.number l.text = some row := by
  obtain ⟨l, head, tail, hfirst, htext, hstart, hposition⟩ := h.first
  obtain ⟨more, rfl⟩ := List.head?_eq_some_iff.mp hfirst
  obtain ⟨row, rows, hrow, -, hrows⟩ := List.forall₂_cons_left_iff.mp h.rows
  exact ⟨l, head, tail, row, rows, h.mem_numbered List.mem_cons_self, htext, hstart,
    hposition, hrows, hrow⟩

/-- The number of the last line has at most twenty digits. -/
theorem Shows.width_le {start stop last : Nat} {e : Excerpt} {ls : List Line}
    (h : Shows source start stop last e ls) (hsize : byteLength source ≤ UInt64.size) :
    e.width ≤ 20 := by
  obtain ⟨final, hfinal, -, hwidth⟩ := h.final
  have hnumber := number_le_byteLength (h.mem_numbered (List.mem_of_getLast? hfinal))
  have hle := Nat.le_trans hnumber (Nat.add_le_add_left hsize 1)
  rw [hwidth]
  exact length_digits_le_of_lt (by decide) (Nat.lt_of_le_of_lt hle (by decide))

theorem exists_of_mem_right {α β : Type} {R : α → β → Prop} {as : List α}
    {bs : List β} {b : β} (h : List.Forall₂ R as bs) (hb : b ∈ bs) : ∃ a ∈ as, R a b := by
  induction h with
  | nil => cases hb
  | cons hab _ ih =>
    rcases List.mem_cons.mp hb with rfl | hb
    · exact ⟨_, List.mem_cons_self, hab⟩
    · obtain ⟨a, ha, hab⟩ := ih hb
      exact ⟨a, List.mem_cons_of_mem _ ha, hab⟩

/-- The carets of a line behind the start of the span are not indented. -/
theorem indent_eq_zero {start stop : Nat} {row : Row} {marks : Marks}
    (hl : l ∈ numbered source) (hstart : IsBoundary source start) (hle : start ≤ l.start)
    (hrow : row? start stop l.start l.number l.text = some row)
    (hmarks : marks ∈ row.marks) : marks.indent = 0 := by
  obtain ⟨above, behind, hsource, habove, -⟩ := exists_cut_of_mem hl
  rw [Nat.zero_add] at habove
  obtain ⟨indented, rest, -, hindented, hrow'⟩ := row?_eq hsource hstart stop l.number
  rw [← habove, Nat.sub_eq_zero_of_le hle, Nat.zero_min] at hindented
  have hnil : indented = [] := by
    by_contra hne
    exact Nat.ne_of_gt (byteLength_pos hne) hindented
  rw [← habove, hrow] at hrow'
  obtain rfl := Option.some.inj hrow'
  dsimp only at hmarks
  split at hmarks
  · cases hmarks
  · obtain rfl := Option.some.inj hmarks
    rw [hnil]
    rfl

/-- Only the first row can have indented carets: the span begins in front of the other
lines. -/
theorem Shows.fits_iff {start stop last : Nat} {e : Excerpt} {ls : List Line} {row : Row}
    {rows : List Row} (h : Shows source start stop last e ls)
    (hstart : IsBoundary source start) (hrows : e.rows = row :: rows) :
    e.Fits ↔ e.width ≤ 65535 ∧ ∀ marks ∈ row.marks, marks.indent ≤ 65535 := by
  constructor
  · intro hfits
    exact ⟨hfits.width, hfits.indents row (hrows ▸ List.mem_cons_self)⟩
  · rintro ⟨hwidth, hfirst⟩
    refine ⟨hwidth, ?_⟩
    rw [hrows]
    refine List.forall_mem_cons.mpr ⟨hfirst, fun below hbelow marks hmarks => ?_⟩
    obtain ⟨first, head, tail, hhead, htext, hoffset, -⟩ := h.first
    obtain ⟨more, rfl⟩ := List.head?_eq_some_iff.mp hhead
    have hforall := h.rows
    rw [hrows, List.forall₂_cons] at hforall
    obtain ⟨m, hm, hrow⟩ := exists_of_mem_right hforall.2 hbelow
    have hbehind : start ≤ m.start := by
      have hlt := ((List.pairwise_cons.mp h.pairwise).1 m hm).2
      rw [Line.stop, htext, byteLength_append] at hlt
      omega
    have hmem := h.mem_numbered (List.mem_cons_of_mem _ hm)
    rw [indent_eq_zero hmem hstart hbehind hrow hmarks]
    exact Nat.zero_le _

/-- A lexeme stands in one line, since neither white space nor a line feed begins one. -/
theorem exists_char_of_lexeme {head tail : List Char} (hl : l ∈ numbered source)
    (hlexeme : LexemeAt source (l.start + byteLength head))
    (htext : l.text = head ++ tail) :
    ∃ above c rest behind, tail = c :: rest ∧ isAsciiBlank c = false ∧
      source = (above ++ head) ++ c :: (rest ++ behind) ∧ l.start = byteLength above := by
  obtain ⟨above, behind, hsource, habove, hends⟩ := exists_cut_of_mem hl
  rw [Nat.zero_add] at habove
  rw [htext, List.append_assoc, ← List.append_assoc] at hsource
  obtain ⟨before, c, after, hlexeme, hoffset, hc⟩ := hlexeme
  rw [habove, ← byteLength_append] at hoffset
  obtain ⟨-, hrest⟩ := eq_of_byteLength_eq (hsource.symm.trans hlexeme) hoffset
  cases tail with
  | nil =>
    rw [List.nil_append] at hrest
    obtain rfl := hends c (by rw [hrest]; rfl)
    cases hc
  | cons d rest =>
    obtain ⟨rfl, -⟩ := List.cons.inj hrest
    exact ⟨above, d, rest, behind, rfl, hc, hsource, habove⟩

/-- A span that begins with a lexeme covers the first character behind the part of the
line in front of the span, and this character is shown. -/
theorem inside_of_lexeme {head tail : List Char} (hl : l ∈ numbered source)
    (hspan : span.Proper source) (hlexeme : LexemeAt source span.start)
    (htext : l.text = head ++ tail) (hstart : span.start = l.start + byteLength head) :
    l.Inside span head.length ∧ head.length < (trimReturns l.text).length := by
  obtain ⟨above, c, rest, behind, rfl, hc, hsource, habove⟩ :=
    exists_char_of_lexeme hl (hstart ▸ hlexeme) htext
  constructor
  · have hstop := hspan.stop
    rw [hsource] at hstop
    have hnext :=
      hstop.next_le (by rw [byteLength_append, ← habove, ← hstart]; exact hspan.lt)
    have htake : (head ++ c :: rest).take (head.length + 1) = head ++ [c] := by
      rw [List.take_length_add_append]
      rfl
    rw [List.append_assoc, byteLength_append, ← habove] at hnext
    rw [Line.Inside, htext, List.take_left, htake]
    exact ⟨Nat.le_of_eq hstart, hnext⟩
  · refine length_lt_trimReturns htext ?_
    rintro rfl
    cases hc

/-- The first row for a span that begins with a lexeme is indented by what stands in the
line in front of the span. -/
theorem row?_of_lexeme {head tail : List Char} (hl : l ∈ numbered source)
    (hspan : span.Proper source) (hlexeme : LexemeAt source span.start)
    (htext : l.text = head ++ tail) (hstart : span.start = l.start + byteLength head) :
    ∃ count, row? span.start span.stop l.start l.number l.text =
      some ⟨l.number, trimReturns l.text, some ⟨head.length, count + 1⟩⟩ := by
  obtain ⟨indented, run, rest, hdivides, hrow⟩ := exists_divides hl hspan
  obtain ⟨k, hreturns⟩ := (shownAs_trimReturns l).returns
  obtain ⟨hinside, hshown⟩ := inside_of_lexeme hl hspan hlexeme htext hstart
  have hparts : indented ++ (run ++ rest ++ List.replicate k '\r') = head ++ tail := by
    rw [← htext, hreturns, hdivides.text]
    simp only [List.append_assoc]
  have hle : byteLength head ≤ byteLength (trimReturns l.text) :=
    (byteLength_le_iff (hreturns.symm.trans htext)).mpr (Nat.le_of_lt hshown)
  obtain ⟨rfl, -⟩ := eq_of_byteLength_eq hparts (by rw [hdivides.start]; omega)
  obtain ⟨-, hlt⟩ := (hdivides.inside_iff hreturns hshown).mp hinside
  obtain ⟨count, hcount⟩ : ∃ count, run.length = count + 1 := ⟨run.length - 1, by omega⟩
  rw [hcount, if_neg (Nat.succ_ne_zero count)] at hrow
  exact ⟨count, hrow⟩

/-- The first row for the empty span at the end of a source has one caret, behind all that
is shown. -/
theorem row?_of_end {head tail : List Char} (hl : l ∈ numbered source)
    (htext : l.text = head ++ tail)
    (hend : byteLength source = l.start + byteLength head) :
    (∃ before, source = before ++ l.text) ∧ tail = [] ∧
      row? (byteLength source) (byteLength source) l.start l.number l.text =
        some ⟨l.number, trimReturns l.text, some ⟨(trimReturns l.text).length, 1⟩⟩ := by
  obtain ⟨before, behind, hsource, hbefore, -⟩ := exists_cut_of_mem hl
  rw [Nat.zero_add] at hbefore
  have hparts : (before ++ head) ++ (tail ++ behind) = source ++ [] := by
    rw [hsource, htext, List.append_nil, List.append_assoc, List.append_assoc]
  obtain ⟨-, hnil⟩ := eq_of_byteLength_eq hparts (by rw [byteLength_append]; omega)
  obtain ⟨rfl, rfl⟩ := List.append_eq_nil_iff.mp hnil
  obtain ⟨indented, rest, hshown, hindented, hrow⟩ :=
    row?_eq hsource (isBoundary_byteLength source) (byteLength source) l.number
  obtain ⟨k, hreturns⟩ := (shownAs_trimReturns l).returns
  have hlength := congrArg byteLength (htext.symm.trans hreturns)
  rw [List.append_nil, byteLength_append] at hlength
  obtain ⟨rfl, -⟩ := eq_of_byteLength_eq (hshown.symm.trans (List.append_nil _).symm)
    (show byteLength indented = byteLength (trimReturns l.text) by omega)
  rw [markCount, if_pos rfl, ← hbefore] at hrow
  exact ⟨⟨before, by rw [hsource, List.append_nil]⟩, rfl, hrow⟩

/-- The excerpt for the empty span at the end of a source. -/
theorem exists_shows_end (source : List Char) :
    ∃ e ls, ofSpan? source (.point (byteLength source)) = some e ∧
      Shows source (byteLength source) (byteLength source) (byteLength source) e ls := by
  have hcut :
      IsBoundary source (min (Span.point (byteLength source)).start (byteLength source)) := by
    rw [Span.point, Nat.min_self]
    exact isBoundary_byteLength source
  have h := exists_ofSpan? hcut rfl rfl
  rwa [Span.point, Nat.min_self, Nat.max_self, if_neg (Nat.lt_irrefl _)] at h

/-! ## Locators -/

/-- The first row of an excerpt is the one of the line in the locator, with carets behind
this many characters. -/
structure Opens (source : List Char) (e : Excerpt) (l : Line) (indent count : Nat)
    (rows : List Row) : Prop where
  mem : l ∈ numbered source
  line : l.number = e.position.line
  rows : e.rows = ⟨l.number, trimReturns l.text, some ⟨indent, count + 1⟩⟩ :: rows

/-- An excerpt fits just if the first caret is not too far to the right. -/
theorem Opens.fits_iff {start stop last indent count : Nat} {e : Excerpt} {ls : List Line}
    {rows : List Row} (h : Opens source e l indent count rows)
    (hshows : Shows source start stop last e ls) (hstart : IsBoundary source start)
    (hsize : byteLength source ≤ UInt64.size) : e.Fits ↔ indent ≤ 65535 := by
  have hwidth : e.width ≤ 65535 := Nat.le_trans (hshows.width_le hsize) (by decide)
  rw [hshows.fits_iff hstart h.rows]
  simp [hwidth]

/-- For a span that begins with a lexeme, the first caret stands in the column of the
locator. -/
theorem Shows.exists_opens {e : Excerpt} {ls : List Line}
    (h : Shows source span.start span.stop (span.stop - 1) e ls)
    (hspan : span.Proper source) (hlexeme : LexemeAt source span.start) :
    ∃ l indent count rows, Opens source e l indent count rows ∧
      indent + 1 = e.position.column := by
  obtain ⟨l, head, tail, row, rows, hl, htext, hstart, hposition, hrows, hrow⟩ :=
    h.exists_first
  obtain ⟨count, hrow'⟩ := row?_of_lexeme hl hspan hlexeme htext hstart
  obtain rfl := Option.some.inj (hrow.symm.trans hrow')
  exact ⟨l, head.length, count, rows, ⟨hl, by rw [hposition], hrows⟩, by rw [hposition]⟩

/-- For the empty span at the end of a source, the caret stands behind what is shown of
the last line.  The column counts the carriage returns behind that, too. -/
theorem Shows.exists_opens_end {e : Excerpt} {ls : List Line}
    (h : Shows source (byteLength source) (byteLength source) (byteLength source) e ls) :
    ∃ l rows, Opens source e l (trimReturns l.text).length 0 rows ∧
      (trimReturns l.text).length + 1 ≤ e.position.column ∧
      (source.getLast? ≠ some '\r' →
        (trimReturns l.text).length + 1 = e.position.column) := by
  obtain ⟨l, head, tail, row, rows, hl, htext, hstart, hposition, hrows, hrow⟩ :=
    h.exists_first
  obtain ⟨⟨before, hbefore⟩, rfl, hrow'⟩ := row?_of_end hl htext hstart
  obtain rfl := Option.some.inj (hrow.symm.trans hrow')
  obtain ⟨k, hreturns⟩ := (shownAs_trimReturns l).returns
  have hlength : head.length = (trimReturns l.text).length + k := by
    have hhead := congrArg List.length (htext.symm.trans hreturns)
    simpa using hhead
  refine ⟨l, rows, ⟨hl, by rw [hposition], hrows⟩, ?_, fun hreturn => ?_⟩
  · rw [hposition, hlength]
    exact Nat.succ_le_succ (Nat.le_add_right _ _)
  · -- Nothing but carriage returns at the end of the source is not shown.
    obtain rfl : k = 0 := by
      by_contra hk
      refine hreturn ?_
      rw [hbefore, hreturns, List.getLast?_append, List.getLast?_append,
        List.getLast?_replicate, if_neg hk]
      rfl
    rw [hposition, hlength, Nat.add_zero]

end Excerpt

end Abacus
