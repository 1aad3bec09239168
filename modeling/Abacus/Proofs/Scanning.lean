import Abacus.Proofs.Spelling

set_option autoImplicit false

/-!
# What a scan says about its text

A scan accounts for every character of the text in front of its end: the text consists of
the ranges of the tokens and of the layout between them.  The ranges are cut out between
whole characters, and a run of digits or of identifier characters is never taken in part.

Main statements:

* `Scan.covers_scanFrom`: what every token and the ending of a scan stand for, and what
  lies between.
* `Scan.answer?_eq`: what each call for the next token gives.
* `Scan.faithful_ofText`: all of it for a whole source.
-/

namespace Abacus

/-- The span cuts a text into what stands before it, its own text and what stands behind
it. -/
def Span.Cuts (span : Span) (source before run rest : List Char) : Prop :=
  source = before ++ run ++ rest ∧ span.start = Text.byteLength before ∧
    span.stop = Text.byteLength before + Text.byteLength run

/-- A run of characters, the first of the one class and the others of the other, that
cannot be made longer at either end. -/
structure MaximalRun (first more : Char → Bool) (before run rest : List Char) : Prop where
  inside : ∃ c cs, run = c :: cs ∧ first c = true ∧ ∀ d ∈ cs, more d = true
  begins : ∀ c ∈ before.getLast?, first c = false
  ends : ∀ c ∈ rest.head?, more c = false

/-- The run between two parts of a text is written as a token of this kind is. -/
def Token.Kind.Matches (before run rest : List Char) : Token.Kind → Prop
  | operator op => run = [op.symbol]
  | openParen => run = ['(']
  | closeParen => run = [')']
  | int value => MaximalRun Char.isDigit Char.isDigit before run rest ∧
    value.toInt = Text.digitsValue run
  | ident name => MaximalRun Token.isIdentStart Token.isIdentPart before run rest ∧
    run = name.toList

/-- The run between two parts of a text is what the cause of a violation says. -/
def ParseError.Cause.Rejects (before run rest : List Char) : ParseError.Cause → Prop
  | valueOutOfRange => MaximalRun Char.isDigit Char.isDigit before run rest ∧
    Int64.maxValue.toInt < Text.digitsValue run
  | illegalCharacter c => run = [c] ∧ Token.punctuation? c = none ∧ c.isDigit = false ∧
    Token.isIdentStart c = false ∧ Text.isAsciiBlank c = false ∧ c ≠ '#'
  | _ => False

/-- Between two offsets of a source there is layout only, and a comment that does not end
there lasts up to the end of the source. -/
def IsGap (source : List Char) (start stop : Nat) : Prop :=
  ∃ gap ending, Text.slice? source start stop = some gap ∧ Layout false ending gap ∧
    (ending = true → stop = Text.byteLength source)

/-- From an offset on, there is layout only in front of each of the spans. -/
def GapsFrom (source : List Char) : Nat → List Span → Prop
  | _, [] => True
  | offset, span :: more =>
    IsGap source offset span.start ∧ GapsFrom source span.stop more

namespace Scan

/-- The range that a scan ends with: that of the violation, or the empty one at the
end. -/
def endSpan (scan : Scan) : Span :=
  match scan.ending with
  | .ok stop => .point stop
  | .error v => v.span

/-- The ranges of the tokens, and behind them the one that the scan ends with. -/
def ranges (scan : Scan) : List Span :=
  scan.tokens.map Token.span ++ [scan.endSpan]

/-- What a call for the next token gives when `i` calls have been made before, each of
which went on where the one before it stopped.  After a violation nothing more is
asked. -/
def answer? (offset : Nat) (text : List Char) : Nat → Option Next
  | 0 => some (next offset text)
  | i + 1 =>
    match next offset text with
    | .finished stop => answer? stop [] i
    | .violation _ => none
    | .token t rest => answer? t.span.stop rest i

/-- From an offset of a source on, a scan accounts for all characters up to its end. -/
structure Covers (source : List Char) (offset : Nat) (scan : Scan) : Prop where
  /-- Every token stands for its range. -/
  tokens : ∀ t ∈ scan.tokens, ∃ before run rest,
    t.span.Cuts source before run rest ∧ t.kind.Matches before run rest
  /-- So does a violation. -/
  violation : ∀ v, scan.ending = .error v → ∃ before run rest,
    v.span.Cuts source before run rest ∧ v.cause.Rejects before run rest
  /-- Without a violation the end of the source is reached. -/
  finished : ∀ stop, scan.ending = .ok stop → stop = Text.byteLength source
  /-- All else is layout. -/
  gaps : GapsFrom source offset scan.ranges

/-- What a scan of a whole source has to do with it. -/
structure Faithful (source : List Char) (scan : Scan) :
    Prop extends Covers source 0 scan where
  /-- The range of a token is not empty. -/
  nonempty : ∀ t ∈ scan.tokens, t.span.start < t.span.stop
  /-- The ranges follow each other without overlap. -/
  ordered : scan.ranges.Pairwise fun r s => r.stop ≤ s.start
  /-- All offsets lie between whole characters. -/
  boundaries :
    ∀ r ∈ scan.ranges, Text.IsBoundary source r.start ∧ Text.IsBoundary source r.stop
  /-- The calls for tokens give the tokens in order.  The calls after them find the end of
  the source, however many there are, or the first of them finds the violation. -/
  calls : ∀ i, answer? 0 source i =
    match scan.tokens[i]? with
    | some t => (Text.after? source t.span.stop).map (.token t)
    | none =>
      match scan.ending with
      | .ok stop => some (.finished stop)
      | .error v => if i = scan.tokens.length then some (.violation v) else none

end Scan

/-! ## Cutting -/

section

variable {span : Span} {source before run rest : List Char}

theorem Span.Cuts.text? (h : span.Cuts source before run rest) :
    span.text? source = some run := by
  obtain ⟨rfl, hstart, hstop⟩ := h
  exact Text.slice?_eq_some_iff.mpr ⟨before, rest, rfl, hstart, hstop⟩

theorem Span.Cuts.boundaries (h : span.Cuts source before run rest) :
    Text.IsBoundary source span.start ∧ Text.IsBoundary source span.stop := by
  obtain ⟨hstart, hstop, -⟩ := Text.boundaries_of_slice? h.text?
  exact ⟨hstart, hstop⟩

theorem Span.Cuts.lt (h : span.Cuts source before run rest) (hrun : run ≠ []) :
    span.start < span.stop := by
  obtain ⟨-, hstart, hstop⟩ := h
  have hpos := Text.byteLength_pos hrun
  omega

theorem MaximalRun.ne_nil {first more : Char → Bool}
    (h : MaximalRun first more before run rest) :
    run ≠ [] := by
  obtain ⟨c, cs, rfl, -⟩ := h.inside
  exact List.cons_ne_nil c cs

theorem Token.Kind.Matches.ne_nil {kind : Token.Kind} (h : kind.Matches before run rest) :
    run ≠ [] := by
  cases kind with
  | operator | openParen | closeParen =>
    obtain rfl := h
    exact List.cons_ne_nil _ _
  | int | ident => exact h.1.ne_nil

theorem ParseError.Cause.Rejects.ne_nil {cause : ParseError.Cause}
    (h : cause.Rejects before run rest) : run ≠ [] := by
  cases cause with
  | valueOutOfRange => exact h.1.ne_nil
  | illegalCharacter c =>
    obtain ⟨rfl, -⟩ := h
    exact List.cons_ne_nil _ _
  | _ => exact h.elim

end

/-- Ranges with layout between them follow each other. -/
theorem GapsFrom.pairwise {source : List Char} {spans : List Span} {offset : Nat}
    (h : GapsFrom source offset spans) (hspans : ∀ s ∈ spans, s.start ≤ s.stop) :
    (∀ s ∈ spans, offset ≤ s.start) ∧ spans.Pairwise fun r s => r.stop ≤ s.start := by
  induction spans generalizing offset with
  | nil => exact ⟨by simp, .nil⟩
  | cons span more ih =>
    obtain ⟨⟨gap, ending, hslice, -, -⟩, hmore⟩ := h
    rw [List.forall_mem_cons] at hspans
    have hoffset : offset ≤ span.start := (Text.boundaries_of_slice? hslice).2.2
    obtain ⟨hbehind, hpairwise⟩ := ih hmore hspans.2
    refine ⟨List.forall_mem_cons.mpr ⟨hoffset, fun s hs => ?_⟩,
      List.pairwise_cons.mpr ⟨hbehind, hpairwise⟩⟩
    have hs := hbehind s hs
    omega

namespace Scan

variable {before text : List Char}

/-! ## Where a run begins

A run of digits cannot be made longer to the left, because there is no token that ends in
front of a digit and with a digit: the scanner would have taken both together. -/

/-- No digit and no beginning of an identifier is parted from one of its own class. -/
def Parts (before text : List Char) : Prop :=
  ∀ c ∈ before.getLast?, ∀ d ∈ text.head?,
    (d.isDigit = true → c.isDigit = false) ∧
      (Token.isIdentStart d = true → Token.isIdentStart c = false)

theorem isIdentPart_of_isDigit {c : Char} (h : c.isDigit = true) :
    Token.isIdentPart c = true := by
  simp [Token.isIdentPart, Char.isAlphanum, h]

theorem isIdentPart_of_isIdentStart {c : Char} (h : Token.isIdentStart c = true) :
    Token.isIdentPart c = true := by
  simp only [Token.isIdentStart, Bool.or_eq_true] at h
  simp only [Token.isIdentPart, Char.isAlphanum, Bool.or_eq_true]
  exact h.imp_left Or.inl

theorem isIdentStart_of_isDigit {c : Char} (h : c.isDigit = true) :
    Token.isIdentStart c = false := by
  have hdigit := code_of_isDigit h
  refine Bool.eq_false_iff.mpr fun hstart => ?_
  have := code_of_isIdentStart hstart
  omega

/-- Layout in which no comment is left open ends with a blank. -/
theorem isAsciiBlank_of_layout {inComment : Bool} {layout : List Char}
    (h : Layout inComment false layout) :
    (∀ c ∈ layout.getLast?, Text.isAsciiBlank c = true) ∧
      (inComment = true → layout ≠ []) := by
  generalize hending : false = ending at h
  induction h with
  | nil inComment => exact ⟨by simp, fun hin => by simp_all⟩
  | @blank c cs _ hblank _ ih =>
    refine ⟨fun d hd => ?_, nofun⟩
    cases cs with
    | nil =>
      obtain rfl := Option.some.inj hd
      exact hblank
    | cons _ _ => exact (ih hending).1 d hd
  | @opening cs _ _ ih | @comment _ cs _ _ _ ih =>
    obtain ⟨hlast, hne⟩ := ih hending
    refine ⟨fun d hd => hlast d ?_, fun _ => List.cons_ne_nil _ _⟩
    rwa [List.getLast?_cons_of_ne_nil (hne rfl)] at hd
  | @lineFeed cs _ _ ih =>
    refine ⟨fun d hd => ?_, fun _ => List.cons_ne_nil _ _⟩
    cases cs with
    | nil =>
      obtain rfl := Option.some.inj hd
      rfl
    | cons _ _ => exact (ih hending).1 d hd

theorem Parts.layout {layout : List Char} (h : Parts before (layout ++ text))
    (hlayout : Layout false false layout) : Parts (before ++ layout) text := by
  rcases List.eq_nil_or_concat layout with rfl | ⟨init, last, rfl⟩
  · rwa [List.append_nil]
  · have hblank : Text.isAsciiBlank last = true :=
      (isAsciiBlank_of_layout hlayout).1 last (by simp)
    have hcode : last.toNat < 36 := by
      refine Nat.not_le.mp fun hle => ?_
      rw [(isAsciiBlank_eq_false hle).1] at hblank
      cases hblank
    intro c hc d _
    obtain rfl : last = c := by simpa using hc
    constructor
    · refine fun _ => Bool.eq_false_iff.mpr fun hdigit => ?_
      have := code_of_isDigit hdigit
      omega
    · refine fun _ => Bool.eq_false_iff.mpr fun hstart => ?_
      have := code_of_isIdentStart hstart
      omega

theorem Parts.token {kind : Lexeme.Kind} {run rest : List Char}
    (h : Spelling kind run rest) :
    Parts (before ++ run) rest := by
  have hlast : ∀ c ∈ (before ++ run).getLast?, c ∈ run := by
    have hne : run ≠ [] := by cases h <;> exact List.cons_ne_nil _ _
    intro c hc
    rw [List.getLast?_append, List.getLast?_eq_some_getLast hne, Option.some_or] at hc
    obtain rfl := Option.some.inj hc
    exact List.getLast_mem hne
  intro c hc d hd
  have hmem := hlast c hc
  cases h with
  | operator op =>
    obtain rfl := List.mem_singleton.mp hmem
    cases op <;> exact ⟨fun _ => rfl, fun _ => rfl⟩
  | openParen | closeParen =>
    obtain rfl := List.mem_singleton.mp hmem
    exact ⟨fun _ => rfl, fun _ => rfl⟩
  | number hdigits hrest =>
    refine ⟨fun hdigit => ?_, fun _ => isIdentStart_of_isDigit (hdigits c hmem)⟩
    rw [hrest d hd] at hdigit
    cases hdigit
  | ident hstart hpart hrest =>
    constructor
    · intro hdigit
      have hd' := isIdentPart_of_isDigit hdigit
      rw [hrest d hd] at hd'
      cases hd'
    · intro hdstart
      have hd' := isIdentPart_of_isIdentStart hdstart
      rw [hrest d hd] at hd'
      cases hd'

/-! ## One call -/

theorem maximalRun_of_number {value : Nat} {run rest : List Char}
    (h : Spelling (.number value) run rest) (hparts : Parts before (run ++ rest)) :
    MaximalRun Char.isDigit Char.isDigit before run rest ∧
      value = Text.digitsValue run := by
  cases h with
  | @number c cs _ hdigits hrest =>
    rw [List.forall_mem_cons] at hdigits
    exact ⟨⟨⟨c, cs, rfl, hdigits⟩, fun d hd => (hparts d hd c rfl).1 hdigits.1, hrest⟩,
      rfl⟩

/-- A lexeme that is spelled somewhere and fits is there as a token. -/
theorem matches_of_spelling {l : Lexeme} {run rest : List Char}
    (h : Spelling l.kind run rest) (hfits : l.Fits)
    (hparts : Parts before (run ++ rest)) :
    l.token.kind.Matches before run rest := by
  obtain ⟨kind, span⟩ := l
  cases kind with
  | operator | openParen | closeParen =>
    cases h
    rfl
  | number value =>
    obtain ⟨hrun, rfl⟩ := maximalRun_of_number h hparts
    exact ⟨hrun, Lexeme.toInt_ofNat (hfits _ rfl)⟩
  | ident name =>
    cases h with
    | @ident c cs _ hstart hpart hrest =>
      exact ⟨⟨⟨c, cs, rfl, hstart, hpart⟩, fun d hd => (hparts d hd c rfl).2 hstart,
        hrest⟩, String.toList_ofList.symm⟩

theorem rejects_of_rejected {cause : ParseError.Cause} {run rest : List Char}
    (h : Rejected cause run rest) (hparts : Parts before (run ++ rest)) :
    cause.Rejects before run rest := by
  cases h with
  | number hspelling hvalue =>
    obtain ⟨hrun, rfl⟩ := maximalRun_of_number hspelling hparts
    exact ⟨hrun, hvalue⟩
  | character hpunctuation hdigit hstart hblank hhash =>
    exact ⟨rfl, hpunctuation, hdigit, hstart, hblank, hhash⟩

theorem isGap_layout (before rest : List Char) {layout : List Char} {ending : Bool}
    (h : Layout false ending layout) (hrest : ending = true → rest = []) :
    IsGap (before ++ (layout ++ rest)) (Text.byteLength before)
      (Text.byteLength before + Text.byteLength layout) := by
  refine ⟨layout, ending,
    Text.slice?_eq_some_iff.mpr ⟨before, rest, (List.append_assoc _ _ _).symm, rfl, rfl⟩,
    h,
    fun hending => ?_⟩
  rw [hrest hending, List.append_nil, Text.byteLength_append]

/-! ## All calls -/

/-- A token and what lies in front of it are accounted for, if the scan behind it is
faithful. -/
theorem Covers.cons {source : List Char} {offset : Nat} {t : Token} {scan : Scan}
    (hgap : IsGap source offset t.span.start)
    (ht : ∃ before run rest, t.span.Cuts source before run rest ∧
      t.kind.Matches before run rest)
    (h : Covers source t.span.stop scan) :
    Covers source offset ⟨t :: scan.tokens, scan.ending⟩ where
  tokens := List.forall_mem_cons.mpr ⟨ht, h.tokens⟩
  violation := h.violation
  finished := h.finished
  gaps := ⟨hgap, h.gaps⟩

/-- The scan of the rest of a source accounts for all of it. -/
theorem covers_scanFrom (before text : List Char) (h : Parts before text) :
    Covers (before ++ text) (Text.byteLength before)
      (scanFrom (Text.byteLength before) text) := by
  -- Along the calls of the scan, `Parts` says that no call begins inside a run.
  generalize hoffset : Text.byteLength before = offset
  fun_induction scanFrom offset text generalizing before with
  | case1 offset text stop hnext =>
    obtain ⟨ending, hlayout, rfl⟩ := layout_of_next hnext
    subst hoffset
    have hgap := isGap_layout before [] hlayout fun _ => rfl
    rw [List.append_nil] at hgap
    refine ⟨by simp, fun _ hv => (by cases hv), fun stop hstop => ?_, hgap, trivial⟩
    rw [← Except.ok.inj hstop, Text.byteLength_append]
  | case2 offset text v hnext =>
    obtain ⟨layout, run, rest, start, rfl, hlayout, rfl, hrejected, hspan⟩ :=
      violation_of_next hnext
    subst hoffset
    rw [List.append_assoc] at h
    have hgap := isGap_layout before (run ++ rest) hlayout (fun h => by cases h)
    have hrejects := rejects_of_rejected hrejected (h.layout hlayout)
    refine ⟨by simp, fun w hw => ?_, fun _ hstop => (by cases hstop), ?_, trivial⟩
    · obtain rfl := Except.error.inj hw
      refine ⟨before ++ layout, run, rest, ⟨?_, ?_, ?_⟩, hrejects⟩
      · simp only [List.append_assoc]
      · rw [hspan, Text.byteLength_append]
      · rw [hspan, Text.byteLength_append]
    · rw [List.append_assoc layout]
      exact congrArg Span.start hspan ▸ hgap
  | case3 offset text t rest hnext tail ih =>
    obtain ⟨layout, run, kind, start, rfl, hlayout, rfl, hspelling, hfits, rfl⟩ :=
      spelling_of_next hnext
    subst hoffset
    rw [List.append_assoc] at h
    have hgap := isGap_layout before (run ++ rest) hlayout (fun h => by cases h)
    have hmatches := matches_of_spelling hspelling hfits (h.layout hlayout)
    have hsource :
        before ++ (layout ++ run ++ rest) = before ++ layout ++ run ++ rest := by
      simp only [List.append_assoc]
    have htail := ih (before ++ layout ++ run) (Parts.token hspelling)
      (by simp only [Text.byteLength_append, Lexeme.token])
    rw [← hsource] at htail
    refine Covers.cons ?_ ⟨before ++ layout, run, rest, ⟨hsource, ?_, ?_⟩, hmatches⟩ htail
    · rw [List.append_assoc layout]
      exact hgap
    · rw [Text.byteLength_append]
      rfl
    · rw [Text.byteLength_append]
      rfl

/-- At the end of a text, all further calls find the end there. -/
theorem answer?_nil (offset i : Nat) : answer? offset [] i = some (.finished offset) := by
  induction i with
  | zero => rfl
  | succ i ih => exact ih

/-- Calls for tokens give the tokens of the scan, and then its ending. -/
theorem answer?_eq {source : List Char} (before text : List Char)
    (hsource : source = before ++ text) (i : Nat) :
    answer? (Text.byteLength before) text i =
      match (scanFrom (Text.byteLength before) text).tokens[i]? with
      | some t => (Text.after? source t.span.stop).map (.token t)
      | none =>
        match (scanFrom (Text.byteLength before) text).ending with
        | .ok stop => some (.finished stop)
        | .error v =>
          if i = (scanFrom (Text.byteLength before) text).tokens.length then
            some (.violation v)
          else none := by
  generalize hoffset : Text.byteLength before = offset
  fun_induction scanFrom offset text generalizing before i with
  | case1 offset text stop hnext =>
    cases i with
    | zero => simp only [answer?, hnext, List.getElem?_nil]
    | succ i => simp only [answer?, hnext, answer?_nil, List.getElem?_nil]
  | case2 offset text v hnext =>
    cases i with
    | zero => simp only [answer?, hnext, List.getElem?_nil, List.length_nil, if_true]
    | succ i => simp [answer?, hnext]
  | case3 offset text t rest hnext tail ih =>
    obtain ⟨layout, run, kind, start, rfl, hlayout, rfl, hspelling, hfits, rfl⟩ :=
      spelling_of_next hnext
    subst hoffset hsource
    have hstop : Text.byteLength (before ++ layout ++ run) =
        Text.byteLength before + Text.byteLength layout + Text.byteLength run := by
      simp only [Text.byteLength_append]
    cases i with
    | zero =>
      have hafter : Text.after? (before ++ (layout ++ run ++ rest))
          (Text.byteLength (before ++ layout ++ run)) = some rest := by
        rw [← Text.after?_append (before ++ layout ++ run) rest]
        simp only [List.append_assoc]
      rw [hstop] at hafter
      simp only [answer?, hnext, List.getElem?_cons_zero, Lexeme.token, hafter,
        Option.map_some]
    | succ i =>
      have htail :=
        ih (before ++ layout ++ run) (by simp only [List.append_assoc]) i hstop
      simp only [answer?, hnext, List.getElem?_cons_succ, List.length_cons,
        Nat.add_right_cancel_iff]
      exact htail

/-- The ranges of a scan are cut out between whole characters. -/
theorem Covers.boundaries {source : List Char} {offset : Nat} {scan : Scan}
    (h : Covers source offset scan) {r : Span} (hr : r ∈ scan.ranges) :
    Text.IsBoundary source r.start ∧ Text.IsBoundary source r.stop ∧
      r.start ≤ r.stop := by
  rcases List.mem_append.mp hr with hr | hr
  · obtain ⟨t, ht, rfl⟩ := List.mem_map.mp hr
    obtain ⟨before, run, rest, hcuts, -⟩ := h.tokens t ht
    exact Text.boundaries_of_slice? hcuts.text?
  · obtain rfl := List.mem_singleton.mp hr
    unfold endSpan
    split
    · rename_i stop hending
      rw [h.finished stop hending]
      exact ⟨Text.isBoundary_byteLength source, Text.isBoundary_byteLength source,
        Nat.le_refl _⟩
    · rename_i v hending
      obtain ⟨before, run, rest, hcuts, -⟩ := h.violation v hending
      exact Text.boundaries_of_slice? hcuts.text?

/-- The ranges of a scan follow each other. -/
theorem Covers.ordered {source : List Char} {offset : Nat} {scan : Scan}
    (h : Covers source offset scan) : scan.ranges.Pairwise fun r s => r.stop ≤ s.start :=
  (h.gaps.pairwise fun _ hr => (h.boundaries hr).2.2).2

theorem covers_ofText (source : List Char) : Covers source 0 (ofText source) :=
  covers_scanFrom [] source (by simp [Parts])

/-- A scan has to do with its source as `Faithful` says: it finds tokens that are as long
as they can be, with nothing but layout between them, then the end or a violation, and it
cuts the source between whole characters only. -/
theorem faithful_ofText (source : List Char) : Faithful source (ofText source) where
  toCovers := covers_ofText source
  nonempty t ht := by
    obtain ⟨before, run, rest, hcuts, hmatches⟩ := (covers_ofText source).tokens t ht
    exact hcuts.lt hmatches.ne_nil
  ordered := (covers_ofText source).ordered
  boundaries _ hr :=
    ⟨((covers_ofText source).boundaries hr).1, ((covers_ofText source).boundaries hr).2.1⟩
  calls := answer?_eq [] source rfl

end Scan

end Abacus
