import Mathlib.Data.List.DropRight
import Mathlib.Data.List.Forall2
import Abacus.Proofs.Lines
import Abacus.Proofs.Printing

set_option autoImplicit false

/-!
# Excerpts exist

A report cuts its excerpt out of the source by offsets, with checked cuts and differences.
Wherever a span begins, as long as it does not begin inside a character, none of the
checks fails: the span may be reversed or reach beyond the source, and its end may stand
inside a character.  The rows are those of consecutive lines, so that there are no more
rounds than lines.

Main statements:

* `Excerpt.row?_eq`: the row of a line, in terms of the part of the line in front of the
  span.
* `Excerpt.rows?_eq_some`: the rounds of an excerpt run over the lines up to the one that
  holds the last byte.
* `Excerpt.exists_ofSpan?`: which lines the excerpt for a span shows.
* `Excerpt.exists_shows_of_start`: every span has an excerpt, unless it begins inside a
  character.
-/

namespace Abacus

open Text

namespace Text.Line

/-! ## Lines up to an offset -/

/-- Lines up to the first one that ends at the offset or behind it. -/
def upTo (offset : Nat) : List Line → List Line
  | [] => []
  | l :: more => if offset ≤ l.stop then [l] else l :: upTo offset more

variable {number start offset : Nat} {l : Line}

theorem head?_upTo (offset : Nat) (l : Line) (more : List Line) :
    (upTo offset (l :: more)).head? = some l := by
  rw [upTo]
  split <;> rfl

theorem exists_upTo_append (offset : Nat) (ls : List Line) :
    ∃ below, ls = upTo offset ls ++ below := by
  induction ls with
  | nil => exact ⟨[], rfl⟩
  | cons l more ih =>
    rw [upTo]
    split
    · exact ⟨more, rfl⟩
    · obtain ⟨below, hbelow⟩ := ih
      exact ⟨below, congrArg (l :: ·) hbelow⟩

/-- The last of the lines up to an offset of the text holds the offset. -/
theorem exists_getLast?_upTo {text : List Char} (number : Nat) (hstart : start ≤ offset)
    (hoffset : offset ≤ start + byteLength text) :
    ∃ l, (upTo offset (list number start (lines text))).getLast? = some l ∧
      l.Holds offset := by
  induction text using line_induction generalizing number start with
  | last line hline =>
    rw [lines_of_notMem hline, list, list, upTo,
      if_pos (show offset ≤ stop ⟨_, _, _⟩ from hoffset)]
    exact ⟨_, rfl, hstart, hoffset⟩
  | more line rest hline ih =>
    rw [list_append_lineFeed hline, upTo]
    split
    · rename_i hle
      exact ⟨_, rfl, hstart, hle⟩
    · rename_i hlt
      have hlt : start + byteLength line < offset := Nat.lt_of_not_le hlt
      have hlength :
          byteLength (line ++ '\n' :: rest) = byteLength line + (1 + byteLength rest) :=
        byteLength_append _ _
      obtain ⟨l, hlast, hholds⟩ := ih (number + 1) hlt (by omega)
      refine ⟨l, ?_, hholds⟩
      rwa [List.getLast?_cons_of_ne_nil]
      rintro hnil
      rw [hnil] at hlast
      cases hlast

/-- The first line of a text begins with what stands in it in front of anything. -/
theorem exists_list_eq_cons {head : List Char} (hhead : '\n' ∉ head) (rest : List Char)
    (number start : Nat) :
    ∃ tail more, list number start (lines (head ++ rest)) = ⟨number, start,
      head ++ tail⟩ :: more := by
  have hline {tail : List Char} (htail : '\n' ∉ tail) : '\n' ∉ head ++ tail := fun h =>
    (List.mem_append.mp h).elim hhead htail
  induction rest using line_induction with
  | last tail htail => exact ⟨tail, [], by rw [lines_of_notMem (hline htail)]; rfl⟩
  | more tail below htail _ =>
    exact ⟨tail, _, by rw [← List.append_assoc, list_append_lineFeed (hline htail)]⟩

end Text.Line

namespace Excerpt

variable {source : List Char} {start stop last number : Nat}

/-! ## Rows -/

theorem difference?_max (a b : Nat) : difference? (max a b) b = some (a - b) := by
  rw [difference?, if_pos (Nat.le_max_right a b)]
  congr 1
  omega

/-- Without the carriage returns at its end, a line lacks just these. -/
theorem trimReturns_spec (line : List Char) :
    (∃ k, line = trimReturns line ++ List.replicate k '\r') ∧
      ∀ c ∈ (trimReturns line).getLast?, c ≠ '\r' := by
  constructor
  · have hreturns : ∀ c ∈ line.rtakeWhile (fun c => decide (c = '\r')), c = '\r' := by
      intro c hc
      have h := List.mem_rtakeWhile_imp hc
      exact of_decide_eq_true h
    refine ⟨(line.rtakeWhile (fun c => decide (c = '\r'))).length, ?_⟩
    rw [← List.eq_replicate_iff.mpr ⟨rfl, hreturns⟩]
    exact List.rdropWhile_append_rtakeWhile.symm
  · intro c hc
    rw [trimReturns, List.getLast?_reverse] at hc
    have hnot := List.head?_dropWhile_not (fun d : Char => decide (d = '\r')) line.reverse
    rw [Option.mem_def.mp hc] at hnot
    exact of_decide_eq_false hnot

/-- A character that is no carriage return is shown. -/
theorem length_lt_trimReturns {line head rest : List Char} {c : Char}
    (hline : line = head ++ c :: rest) (hc : c ≠ '\r') :
    head.length < (trimReturns line).length := by
  obtain ⟨⟨k, hreturns⟩, -⟩ := trimReturns_spec line
  by_contra hle
  have hget : (head ++ c :: rest)[head.length]? = some c := by
    rw [List.getElem?_append_right (Nat.le_refl _), Nat.sub_self]
    rfl
  rw [← hline, hreturns, List.getElem?_append_right (Nat.le_of_not_lt hle)] at hget
  exact hc (List.eq_of_mem_replicate (List.mem_of_getElem? hget))

/-- How many carets stand under a line's text: one for an empty span, otherwise one for
each character in the span, as far as the span can be cut out of the text. -/
def markCount (start stop lineStart : Nat) (text : List Char) : Nat :=
  if stop = start then 1
  else ((slice? text (start - lineStart)
    (min stop (lineStart + byteLength text) - lineStart)).map List.length).getD 0

/-- The row of a line exists whatever the end of the span is.  Its carets are indented by
the part of the line's text in front of the span. -/
theorem row?_eq {before line behind : List Char}
    (hsource : source = before ++ (line ++ behind)) (hstart : IsBoundary source start)
    (stop number : Nat) :
    ∃ indented rest, trimReturns line = indented ++ rest ∧
      byteLength indented =
        min (start - byteLength before) (byteLength (trimReturns line)) ∧
      row? start stop (byteLength before) number line =
        some ⟨number, trimReturns line,
          if markCount start stop (byteLength before) (trimReturns line) = 0 then none
          else some ⟨indented.length,
            markCount start stop (byteLength before) (trimReturns line)⟩⟩ := by
  obtain ⟨⟨k, hreturns⟩, -⟩ := trimReturns_spec line
  rw [hsource, hreturns, List.append_assoc] at hstart
  obtain ⟨indented, rest, htext, hlength⟩ := isBoundary_iff.mp hstart.clip
  have hindented : before? (trimReturns line)
      (min (start - byteLength before) (byteLength (trimReturns line))) =
        some indented := by
    rw [hlength, htext, before?_append]
  refine ⟨indented, rest, htext, hlength.symm, ?_⟩
  simp only [row?, difference?_max, hindented, Option.bind_eq_bind, Option.bind_some]
  rfl

/-! ## Rounds -/

/-- A round makes a row of the line at hand and goes on behind its line feed. -/
theorem rows?_eq {above line behind : List Char}
    (hsource : source = above ++ (line ++ behind)) (hline : '\n' ∉ line)
    (hbehind : ∀ c ∈ behind.head?, c = '\n') (start stop last number : Nat) :
    rows? source start stop last (byteLength above) number =
      (row? start stop (byteLength above) number line).bind fun row =>
        if last ≤ byteLength above + byteLength line ∨
            byteLength above + byteLength line = byteLength source then some [row]
        else (rows? source start stop last (byteLength above + byteLength line + 1)
          (number + 1)).map (row :: ·) := by
  have hafter : after? source (byteLength above) = some (line ++ behind) := by
    rw [hsource, after?_append]
  have hcut : (line ++ behind).takeWhile (· ≠ '\n') = line := by
    rw [List.takeWhile_append_of_pos (decide_ne_lineFeed hline)]
    cases behind with
    | nil => exact List.append_nil line
    | cons c cs =>
      obtain rfl := hbehind c rfl
      exact List.append_nil line
  have hslice :
      slice? source (byteLength above) (byteLength above + byteLength line) = some line :=
    slice?_eq_some_iff.mpr ⟨above, behind, by rw [hsource, List.append_assoc], rfl, rfl⟩
  rw [rows?]
  split
  · rename_i hnone
    rw [hafter] at hnone
    cases hnone
  · rename_i remaining hsome
    obtain rfl := Option.some.inj (hafter.symm.trans hsome)
    simp only [hcut, hslice, Option.bind_eq_bind, Option.bind_some]
    simp only [Option.map_eq_bind]
    rfl

/-- The rows of the lines up to the one that holds the last byte are what the rounds
give. -/
theorem rows?_eq_some {above text : List Char} {rows : List Row}
    (hsource : source = above ++ text) (hlast : last ≤ byteLength source)
    (hrows : List.Forall₂
      (fun l row => row? start stop l.start l.number l.text = some row)
      (Line.upTo last (Line.list number (byteLength above) (lines text))) rows) :
    rows? source start stop last (byteLength above) number = some rows := by
  induction text using line_induction generalizing above number rows with
  | last line hline =>
    have hstop : last ≤ byteLength above + byteLength line := by
      rwa [hsource, byteLength_append] at hlast
    rw [lines_of_notMem hline, Line.list, Line.list, Line.upTo,
      if_pos (show last ≤ Line.stop ⟨_, _, _⟩ from hstop)] at hrows
    obtain ⟨row, _, hrow, hnil, rfl⟩ := List.forall₂_cons_left_iff.mp hrows
    obtain rfl := List.forall₂_nil_left_iff.mp hnil
    rw [rows?_eq (by rw [hsource, List.append_nil]) hline (by simp), hrow,
      Option.bind_some, if_pos (Or.inl hstop)]
  | more line rest hline ih =>
    have hsource' : source = (above ++ (line ++ ['\n'])) ++ rest := by
      rw [hsource, List.append_assoc, List.append_assoc, List.singleton_append]
    have hnext :
        byteLength (above ++ (line ++ ['\n'])) =
          byteLength above + byteLength line + 1 := by
      rw [byteLength_append, byteLength_append, ← Nat.add_assoc]
      rfl
    have hinside : byteLength above + byteLength line ≠ byteLength source := by
      rw [hsource', byteLength_append, hnext]
      omega
    rw [list_append_lineFeed hline, Line.upTo] at hrows
    rw [rows?_eq hsource hline (by simp)]
    split at hrows
    · rename_i hstop
      have hstop : last ≤ byteLength above + byteLength line := hstop
      obtain ⟨row, _, hrow, hnil, rfl⟩ := List.forall₂_cons_left_iff.mp hrows
      obtain rfl := List.forall₂_nil_left_iff.mp hnil
      rw [hrow, Option.bind_some, if_pos (Or.inl hstop)]
    · rename_i hmore
      have hmore : ¬ last ≤ byteLength above + byteLength line := hmore
      obtain ⟨row, below, hrow, hbelow, rfl⟩ := List.forall₂_cons_left_iff.mp hrows
      rw [← hnext] at hbelow
      rw [hrow, Option.bind_some, if_neg (not_or_intro hmore hinside), ← hnext,
        ih hsource' hbelow]
      rfl

/-! ## Whole excerpts -/

/-- The excerpt shows these lines of a source: consecutive ones, from the line that holds
the start of the span, which is also the line of the position, up to the line that holds
its last byte. -/
structure Shows (source : List Char) (start stop last : Nat) (e : Excerpt)
    (ls : List Line) : Prop where
  consecutive : ∃ above below, numbered source = above ++ ls ++ below
  /-- The column counts the characters in front of the start. -/
  first : ∃ l head tail, ls.head? = some l ∧ l.text = head ++ tail ∧
    start = l.start + byteLength head ∧ e.position = ⟨l.number, head.length + 1⟩
  final : ∃ l, ls.getLast? = some l ∧ l.Holds last ∧ e.width = (digits l.number).length
  position : position? source start = some e.position
  rows : List.Forall₂ (fun l row => row? start stop l.start l.number l.text = some row)
    ls e.rows

theorem Shows.mem_numbered {stop last : Nat} {e : Excerpt} {ls : List Line} {l : Line}
    (h : Shows source start stop last e ls) (hl : l ∈ ls) : l ∈ numbered source := by
  obtain ⟨above, below, hnumbered⟩ := h.consecutive
  rw [hnumbered]
  exact List.mem_append_left _ (List.mem_append_right _ hl)

theorem Shows.pairwise {stop last : Nat} {e : Excerpt} {ls : List Line}
    (h : Shows source start stop last e ls) :
    ls.Pairwise fun l m => l.number < m.number ∧ l.stop < m.start := by
  obtain ⟨above, below, hnumbered⟩ := h.consecutive
  refine (pairwise_list 1 0 (lines source)).sublist ?_
  rw [← numbered, hnumbered]
  exact (List.sublist_append_right _ _).trans (List.sublist_append_left _ _)

/-- No line has a greater number than the last one. -/
theorem Shows.number_le {stop last : Nat} {e : Excerpt} {ls : List Line} {l final : Line}
    (h : Shows source start stop last e ls) (hfinal : ls.getLast? = some final)
    (hl : l ∈ ls) :
    l.number ≤ final.number := by
  have hordered := h.pairwise
  obtain ⟨upper, rfl⟩ := List.getLast?_eq_some_iff.mp hfinal
  rcases List.mem_append.mp hl with hupper | hlast
  · exact Nat.le_of_lt ((List.pairwise_append.mp hordered).2.2 l hupper final
      (List.mem_singleton_self _)).1
  · obtain rfl := List.mem_singleton.mp hlast
    exact Nat.le_refl _

theorem exists_forall₂ {α β : Type} {R : α → β → Prop} {as : List α}
    (h : ∀ a ∈ as, ∃ b, R a b) :
    ∃ bs, List.Forall₂ R as bs := by
  induction as with
  | nil => exact ⟨[], .nil⟩
  | cons a as ih =>
    rw [List.forall_mem_cons] at h
    obtain ⟨⟨b, hb⟩, has⟩ := h
    obtain ⟨bs, hbs⟩ := ih has
    exact ⟨b :: bs, .cons hb hbs⟩

/-- Every line of a source has a row for a span that begins between characters. -/
theorem exists_row {l : Line} (hl : l ∈ numbered source)
    (hstart : IsBoundary source start) (stop : Nat) :
    ∃ row, row? start stop l.start l.number l.text = some row := by
  obtain ⟨before, behind, hsource, hbefore, -⟩ := exists_cut_of_mem hl
  obtain ⟨indented, rest, -, -, hrow⟩ := row?_eq hsource hstart stop l.number
  rw [hbefore, Nat.zero_add]
  exact ⟨_, hrow⟩

/-- The number of the line that holds an offset is found by counting line feeds. -/
theorem position_add_lineFeeds {first final : Line} (hfirst : first ∈ numbered source)
    (hfinal : final ∈ numbered source) (hstart : first.Holds start)
    (hlast : final.Holds last) (hle : start ≤ last) (hlength : last ≤ byteLength source)
    (hnumber : first.number ≤ final.number) :
    lineFeedsBetween? source start last = some (final.number - first.number) := by
  have hstarts : 1 + lineFeedsBefore start source = first.number :=
    lineFeedsBefore_of_holds hfirst (by rwa [Nat.zero_add])
  have hlasts : 1 + lineFeedsBefore last source = final.number :=
    lineFeedsBefore_of_holds hfinal (by rwa [Nat.zero_add])
  rw [lineFeedsBetween?, if_pos ⟨hle, hlength⟩, difference?, if_pos (by omega)]
  congr 1
  omega

/-- From the line in which a cut of the source lies up to the line that holds a later byte
there are consecutive lines. -/
theorem exists_shown {above head rest : List Char} (habove : IsWhole above)
    (hhead : '\n' ∉ head) (hle : byteLength (above ++ head) ≤ last)
    (hlast : last ≤ byteLength (above ++ head ++ rest)) :
    ∃ ls,
      Line.upTo last
          (Line.list (above.count '\n' + 1) (byteLength above) (lines (head ++ rest))) =
        ls ∧
      (∃ before behind, numbered (above ++ head ++ rest) = before ++ ls ++ behind) ∧
      (∃ tail, ls.head? = some ⟨above.count '\n' + 1, byteLength above, head ++ tail⟩) ∧
      ∃ final, ls.getLast? = some final ∧ final.Holds last ∧
        above.count '\n' + 1 ≤ final.number := by
  rw [List.append_assoc] at hlast ⊢
  rw [byteLength_append] at hle hlast
  obtain ⟨before, hbefore⟩ := exists_list_append habove 1 0 (head ++ rest)
  rw [Nat.zero_add, Nat.add_comm 1] at hbefore
  obtain ⟨behind, hbehind⟩ := Line.exists_upTo_append last
    (Line.list (above.count '\n' + 1) (byteLength above) (lines (head ++ rest)))
  obtain ⟨tail, more, hlist⟩ :=
    Line.exists_list_eq_cons hhead rest (above.count '\n' + 1) (byteLength above)
  obtain ⟨final, hfinal, hholds⟩ := Line.exists_getLast?_upTo (above.count '\n' + 1)
    (Nat.le_of_add_right_le hle) hlast
  refine ⟨_, rfl, ⟨before, behind, ?_⟩, ⟨tail, ?_⟩, final, hfinal, hholds, ?_⟩
  · rw [List.append_assoc, ← hbehind]
    exact hbefore
  · rw [hlist]
    exact Line.head?_upTo _ _ _
  · have hmem := List.mem_append_left behind (List.mem_of_getLast? hfinal)
    rw [← hbehind] at hmem
    exact (first_le_of_mem hmem).1

/-- Cut to the source, every span that does not begin inside a character has an
excerpt. -/
theorem exists_ofSpan? {span : Span} {stop last : Nat}
    (hstart : IsBoundary source (min span.start (byteLength source)))
    (hstop : max (min span.start (byteLength source))
      (min span.stop (byteLength source)) = stop)
    (hlast : (if min span.start (byteLength source) < stop then stop - 1
      else min span.start (byteLength source)) = last) :
    ∃ e ls, ofSpan? source span = some e ∧
      Shows source (min span.start (byteLength source)) stop last e ls := by
  have hlength : min span.start (byteLength source) ≤ byteLength source :=
    Nat.min_le_right _ _
  have hstop' : stop ≤ byteLength source :=
    hstop ▸ Nat.max_le.mpr ⟨hlength, Nat.min_le_right _ _⟩
  generalize hmin : min span.start (byteLength source) = start at *
  have hle : start ≤ last := by
    rw [← hlast]
    split <;> omega
  have hlast' : last ≤ byteLength source := by
    rw [← hlast]
    split <;> omega
  -- The lines above the one in which the span starts are whole.
  obtain ⟨above, head, rest, rfl, habove, hhead, rfl⟩ := hstart.exists_lastLine
  obtain ⟨ls, hls, ⟨top, bottom, hnumbered⟩, ⟨tail, hfirst⟩, final, hfinal, hholds,
    hnumber⟩ :=
    exists_shown habove hhead hle hlast'
  have hmem : ∀ l ∈ ls, l ∈ numbered (above ++ head ++ rest) := by
    intro l hl
    rw [hnumbered]
    exact List.mem_append_left _ (List.mem_append_right _ hl)
  obtain ⟨rows, hrows⟩ := exists_forall₂ fun l hl => exists_row (hmem l hl) hstart stop
  have hrounds := rows?_eq_some (List.append_assoc above head rest) hlast' (hls ▸ hrows)
  have hposition : position? (above ++ head ++ rest) (byteLength (above ++ head)) =
      some ⟨above.count '\n' + 1, head.length + 1⟩ := position?_eq habove hhead
  have hfeeds :
      lineFeedsBetween? (above ++ head ++ rest) (byteLength (above ++ head)) last =
      some (final.number - (above.count '\n' + 1)) := by
    refine position_add_lineFeeds (hmem _ (List.mem_of_head? hfirst))
      (hmem _ (List.mem_of_getLast? hfinal)) ⟨?_, ?_⟩ hholds hle hlast' hnumber
    · rw [byteLength_append]
      exact Nat.le_add_right _ _
    · show byteLength (above ++ head) ≤ byteLength above + byteLength (head ++ tail)
      rw [byteLength_append, byteLength_append]
      omega
  refine ⟨⟨⟨above.count '\n' + 1, head.length + 1⟩, (digits final.number).length, rows⟩,
    ls, ?_, ⟨top, bottom, hnumbered⟩,
    ⟨_, head, tail, hfirst, rfl, byteLength_append _ _, rfl⟩,
    ⟨final, hfinal, hholds, rfl⟩, hposition, hrows⟩
  simp only [ofSpan?, hmin, hstop, hlast, hposition, hfeeds, before?_append,
    lastLineStart_append habove hhead, hrounds, Option.bind_eq_bind, Option.bind_some,
    Nat.add_sub_cancel' hnumber]
  rfl

/-- An excerpt has no more rows than the source has lines. -/
theorem Shows.length_rows_le {stop last : Nat} {e : Excerpt} {ls : List Line}
    (h : Shows source start stop last e ls) : e.rows.length ≤ (lines source).length := by
  obtain ⟨above, below, hnumbered⟩ := h.consecutive
  have hlength := congrArg List.length hnumbered
  rw [numbered, Line.length_list, List.length_append, List.length_append,
    h.rows.length_eq]
    at hlength
  omega

/-- Every span that does not begin inside a character of the source has an excerpt. -/
theorem exists_shows_of_start {span : Span}
    (hstart : IsBoundary source span.start ∨ byteLength source ≤ span.start) :
    ∃ e ls start stop last, ofSpan? source span = some e ∧
      Shows source start stop last e ls := by
  have hcut : IsBoundary source (min span.start (byteLength source)) := by
    rcases hstart with hstart | hbeyond
    · rwa [Nat.min_eq_left hstart.le]
    · rw [Nat.min_eq_right hbeyond]
      exact isBoundary_byteLength _
  obtain ⟨e, ls, hexcerpt, hshows⟩ := exists_ofSpan? hcut rfl rfl
  exact ⟨e, ls, _, _, _, hexcerpt, hshows⟩

end Excerpt

end Abacus
