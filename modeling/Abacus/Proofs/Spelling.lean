import Abacus.Token.Scan

set_option autoImplicit false

/-!
# How a text is spelled

`Spelled` says, without reference to the scanner, which lexemes a text consists of: layout
stands between them, literals and identifiers are as long as they can be, and a numeral
may be of any size.  Scanning a text gives its lexemes as tokens, up to the first numeral
that does not fit in 64 bits.

Main statements:

* `Scan.scanFrom_of_spelled`: the scan of a text is determined by its lexemes.
* `Scan.exists_spelled`: the scan of a text takes the lexemes of what stands in front of a
  violation.
* `Scan.spelled_of_scanFrom`: a scan that reaches the end of a text has found the lexemes
  of it.
-/

namespace Abacus

/-- What a lexeme is, apart from where it stands. -/
inductive Lexeme.Kind where
  | operator (op : Operator)
  | openParen
  | closeParen
  /-- A numeral of any size. -/
  | number (value : Nat)
  | ident (name : String)
  deriving DecidableEq, Repr

/-- A lexeme and its place in the text. -/
structure Lexeme where
  kind : Lexeme.Kind
  span : Span
  deriving DecidableEq, Repr

namespace Lexeme

/-- The kind of token of a lexeme.  A numeral past the limit wraps, which `token?` rules
out. -/
def Kind.token : Kind → Token.Kind
  | operator op => .operator op
  | openParen => .openParen
  | closeParen => .closeParen
  | number value => .int (Int64.ofNat value)
  | ident name => .ident name

/-- The token of a lexeme. -/
def token (l : Lexeme) : Token := ⟨l.kind.token, l.span⟩

/-- The numeral of a lexeme, if it is one, is at most the greatest 64-bit integer. -/
def Fits (l : Lexeme) : Prop :=
  ∀ value, l.kind = .number value → (value : Int) ≤ Int64.maxValue.toInt

/-- The token of a lexeme that fits. -/
def token? (l : Lexeme) : Except Violation Token :=
  match l.kind with
  | .number value =>
    match Text.int64? value with
    | some v => .ok ⟨.int v, l.span⟩
    | none => .error ⟨.valueOutOfRange, l.span⟩
  | _ => .ok l.token

theorem toInt_ofNat {n : Nat} (h : (n : Int) ≤ Int64.maxValue.toInt) :
    (Int64.ofNat n).toInt = n := by
  have hmax : Int64.maxValue.toInt = 9223372036854775807 := rfl
  exact Int64.toInt_ofNat_of_lt (by omega)

theorem token?_of_fits {l : Lexeme} (h : l.Fits) : l.token? = .ok l.token := by
  obtain ⟨kind, span⟩ := l
  cases kind with
  | number value =>
    have hvalue : (value : Int) ≤ Int64.maxValue.toInt := h value rfl
    simp only [token?, Text.int64?_natCast, if_pos hvalue]
    rfl
  | _ => rfl

theorem token?_of_not_fits {l : Lexeme} (h : ¬ l.Fits) :
    l.token? = .error ⟨.valueOutOfRange, l.span⟩ := by
  obtain ⟨kind, span⟩ := l
  cases kind with
  | number value =>
    have hvalue : ¬ (value : Int) ≤ Int64.maxValue.toInt := by
      intro hle
      refine h fun n hn => ?_
      obtain rfl := Kind.number.inj hn
      exact hle
    simp only [token?, Text.int64?_natCast, if_neg hvalue]
  | _ => exact absurd (fun n hn => by cases hn) h

end Lexeme

/-! ## Layout -/

/-- White space and comments.  The flags say whether the text begins and ends inside a
comment, which lasts up to the end of its line. -/
inductive Layout : Bool → Bool → List Char → Prop
  | nil (inComment : Bool) : Layout inComment inComment []
  | blank {c : Char} {cs : List Char} {ending : Bool} (h : Text.isAsciiBlank c = true)
      (rest : Layout false ending cs) : Layout false ending (c :: cs)
  | opening {cs : List Char} {ending : Bool} (rest : Layout true ending cs) :
    Layout false ending ('#' :: cs)
  | comment {c : Char} {cs : List Char} {ending : Bool} (h : c ≠ '\n')
      (rest : Layout true ending cs) : Layout true ending (c :: cs)
  | lineFeed {cs : List Char} {ending : Bool} (rest : Layout false ending cs) :
    Layout true ending ('\n' :: cs)

/-- A text that does not begin with layout. -/
def NoLayout (text : List Char) : Prop :=
  ∀ c ∈ text.head?, Text.isAsciiBlank c = false ∧ c ≠ '#'

namespace Scan

section

variable {c : Char} {cs : List Char}

theorem splitLayout_blank (h : Text.isAsciiBlank c = true) :
    splitLayout false (c :: cs) = (c :: (splitLayout false cs).1,
      (splitLayout false cs).2) := by
  have hhash : (c == '#') = false := by
    refine beq_false_of_ne fun heq => ?_
    rw [heq] at h
    exact absurd h (by decide)
  simp [splitLayout, h, hhash]

theorem splitLayout_opening :
    splitLayout false ('#' :: cs) = ('#' :: (splitLayout true cs).1,
      (splitLayout true cs).2) :=
  rfl

theorem splitLayout_comment (h : c ≠ '\n') :
    splitLayout true (c :: cs) = (c :: (splitLayout true cs).1,
      (splitLayout true cs).2) := by
  have hne : (c != '\n') = true := bne_iff_ne.mpr h
  simp [splitLayout, hne]

theorem splitLayout_lineFeed :
    splitLayout true ('\n' :: cs) = ('\n' :: (splitLayout false cs).1,
      (splitLayout false cs).2) :=
  rfl

theorem splitLayout_noLayout {text : List Char} (h : NoLayout text) :
    splitLayout false text = ([], text) := by
  cases text with
  | nil => rfl
  | cons c cs =>
    obtain ⟨hblank, hhash⟩ := h c rfl
    simp [splitLayout, hblank, hhash]

end

/-- The scanner skips all the layout in front of a text. -/
theorem splitLayout_of_layout {inComment ending : Bool} {layout rest : List Char}
    (h : Layout inComment ending layout)
    (hrest : rest = [] ∨ ending = false ∧ NoLayout rest) :
    splitLayout inComment (layout ++ rest) = (layout, rest) := by
  induction h with
  | nil inComment =>
    rcases hrest with rfl | ⟨rfl, hrest⟩
    · rfl
    · exact splitLayout_noLayout hrest
  | blank hc _ ih => rw [List.cons_append, splitLayout_blank hc, ih hrest]
  | opening _ ih => rw [List.cons_append, splitLayout_opening, ih hrest]
  | comment hc _ ih => rw [List.cons_append, splitLayout_comment hc, ih hrest]
  | lineFeed _ ih => rw [List.cons_append, splitLayout_lineFeed, ih hrest]

/-- What the scanner skips is layout, and what it stops at is none. -/
theorem layout_of_splitLayout (inComment : Bool) (text : List Char) :
    ∃ ending, Layout inComment ending (splitLayout inComment text).1 ∧
      ((splitLayout inComment text).2 = [] ∨
        ending = false ∧ NoLayout (splitLayout inComment text).2) := by
  induction text generalizing inComment with
  | nil => exact ⟨inComment, .nil inComment, Or.inl rfl⟩
  | cons c cs ih =>
    cases inComment with
    | true =>
      by_cases hc : c = '\n'
      · subst hc
        obtain ⟨ending, hlayout, hrest⟩ := ih false
        rw [splitLayout_lineFeed]
        exact ⟨ending, .lineFeed hlayout, hrest⟩
      · obtain ⟨ending, hlayout, hrest⟩ := ih true
        rw [splitLayout_comment hc]
        exact ⟨ending, .comment hc hlayout, hrest⟩
    | false =>
      by_cases hhash : c = '#'
      · subst hhash
        obtain ⟨ending, hlayout, hrest⟩ := ih true
        rw [splitLayout_opening]
        exact ⟨ending, .opening hlayout, hrest⟩
      · by_cases hblank : Text.isAsciiBlank c = true
        · obtain ⟨ending, hlayout, hrest⟩ := ih false
          rw [splitLayout_blank hblank]
          exact ⟨ending, .blank hblank hlayout, hrest⟩
        · have hno : NoLayout (c :: cs) := by
            intro d hd
            obtain rfl := Option.some.inj hd
            exact ⟨by simpa using hblank, hhash⟩
          rw [splitLayout_noLayout hno]
          exact ⟨false, .nil false, Or.inr ⟨rfl, hno⟩⟩

end Scan

/-! ## Lexemes -/

/-- The ways to spell a lexeme in front of the text `rest`: a numeral or an identifier
must not go on there. -/
inductive Spelling : Lexeme.Kind → List Char → List Char → Prop
  | operator (op : Operator) (rest : List Char) : Spelling (.operator op) [op.symbol] rest
  | openParen (rest : List Char) : Spelling .openParen ['('] rest
  | closeParen (rest : List Char) : Spelling .closeParen [')'] rest
  | number {c : Char} {cs rest : List Char} (h : ∀ d ∈ c :: cs, d.isDigit = true)
      (hrest : ∀ d ∈ rest.head?, d.isDigit = false) :
    Spelling (.number (Text.digitsValue (c :: cs))) (c :: cs) rest
  | ident {c : Char} {cs rest : List Char} (hstart : Token.isIdentStart c = true)
      (h : ∀ d ∈ cs, Token.isIdentPart d = true)
      (hrest : ∀ d ∈ rest.head?, Token.isIdentPart d = false) :
    Spelling (.ident (String.ofList (c :: cs))) (c :: cs) rest

/-- The text, which begins at `offset`, is spelled with the given lexemes and ends at
`stop`. -/
inductive Spelled : Nat → List Char → List Lexeme → Nat → Prop
  | finished {offset : Nat} {layout : List Char} {ending : Bool}
      (h : Layout false ending layout) :
    Spelled offset layout [] (offset + Text.byteLength layout)
  | lexeme {offset start next stop : Nat} {layout text rest : List Char}
    {kind : Lexeme.Kind}
      {more : List Lexeme} (h : Layout false false layout)
      (hstart : start = offset + Text.byteLength layout)
      (htext : Spelling kind text rest) (hnext : next = start + Text.byteLength text)
      (hrest : Spelled next rest more stop) :
    Spelled offset (layout ++ text ++ rest) (⟨kind, ⟨start, next⟩⟩ :: more) stop

/-- A lexeme that does not go on in front of a text does not go on in front of the
beginning of that text. -/
theorem Spelling.of_append {kind : Lexeme.Kind} {text rest more : List Char}
    (h : Spelling kind text (rest ++ more)) : Spelling kind text rest := by
  have hhead : ∀ d ∈ rest.head?, d ∈ (rest ++ more).head? := by
    cases rest with
    | nil => simp
    | cons c cs => exact fun d hd => hd
  cases h with
  | operator op => exact .operator op rest
  | openParen => exact .openParen rest
  | closeParen => exact .closeParen rest
  | number hdigits hrest => exact .number hdigits fun d hd => hrest d (hhead d hd)
  | ident hstart hpart hrest => exact .ident hstart hpart fun d hd => hrest d (hhead d hd)

/-- An identifier spells itself. -/
theorem Spelling.of_isIdentifier {name : String} {rest : List Char}
    (h : Token.isIdentifier name = true)
    (hrest : ∀ c ∈ rest.head?, Token.isIdentPart c = false) :
    Spelling (.ident name) name.toList rest := by
  unfold Token.isIdentifier at h
  split at h
  · cases h
  · rename_i c cs hname
    obtain ⟨hstart, hpart⟩ := (Bool.and_eq_true _ _).mp h
    have hident := Spelling.ident hstart (List.all_eq_true.mp hpart) hrest
    rwa [← hname, String.ofList_toList] at hident

/-- A text ends behind its last byte. -/
theorem Spelled.stop_eq {offset stop : Nat} {text : List Char} {lexemes : List Lexeme}
    (h : Spelled offset text lexemes stop) : stop = offset + Text.byteLength text := by
  induction h with
  | finished => rfl
  | lexeme _ hstart _ hnext _ ih =>
    rw [Text.byteLength_append, Text.byteLength_append]
    omega

namespace Scan

/-! ### Characters of lexemes -/

section

variable {c : Char}

theorem code_of_isDigit (h : c.isDigit = true) : 48 ≤ c.toNat ∧ c.toNat ≤ 57 := by
  simp only [Char.isDigit, Bool.and_eq_true, decide_eq_true_eq] at h
  exact h

theorem code_of_isAlpha (h : c.isAlpha = true) : 65 ≤ c.toNat ∧ c.toNat ≤ 122 := by
  rcases (Bool.or_eq_true c.isUpper c.isLower).mp h with hupper | hlower
  · have hcode : 65 ≤ c.toNat ∧ c.toNat ≤ 90 := of_decide_eq_true hupper
    omega
  · obtain ⟨hlow, hhigh⟩ := (Bool.and_eq_true _ _).mp hlower
    have hlow : 97 ≤ c.toNat := of_decide_eq_true hlow
    have hhigh : c.toNat ≤ 122 := of_decide_eq_true hhigh
    omega

theorem code_of_isIdentStart (h : Token.isIdentStart c = true) :
    65 ≤ c.toNat ∧ c.toNat ≤ 122 := by
  simp only [Token.isIdentStart, Bool.or_eq_true, beq_iff_eq] at h
  rcases h with h | rfl
  · exact code_of_isAlpha h
  · decide

theorem code_of_isIdentPart (h : Token.isIdentPart c = true) :
    48 ≤ c.toNat ∧ c.toNat ≤ 122 := by
  simp only [Token.isIdentPart, Char.isAlphanum, Bool.or_eq_true, beq_iff_eq] at h
  rcases h with (h | h) | rfl
  · have := code_of_isAlpha h
    omega
  · have := code_of_isDigit h
    omega
  · decide

theorem punctuation?_eq_none (h : 48 ≤ c.toNat) : Token.punctuation? c = none := by
  unfold Token.punctuation?
  split
  case h_7 => rfl
  all_goals exact absurd h (by decide)

theorem isAsciiBlank_eq_false (h : 36 ≤ c.toNat) :
    Text.isAsciiBlank c = false ∧ c ≠ '#' := by
  constructor
  · refine Bool.eq_false_iff.mpr fun hblank => ?_
    simp only [Text.isAsciiBlank, Bool.or_eq_true, beq_iff_eq] at hblank
    rcases hblank with (((rfl | rfl) | rfl) | rfl) | rfl <;> exact absurd h (by decide)
  · rintro rfl
    exact absurd h (by decide)

theorem utf8Size_eq_one (h : c.toNat ≤ 122) : c.utf8Size = 1 :=
  Char.utf8Size_eq_one_iff.mpr (UInt32.le_iff_toNat_le.mpr (Nat.le_trans h (by decide)))

end

theorem byteLength_of_codes {cs : List Char} (h : ∀ c ∈ cs, c.toNat ≤ 122) :
    Text.byteLength cs = cs.length := by
  induction cs with
  | nil => rfl
  | cons c cs ih =>
    rw [List.forall_mem_cons] at h
    rw [Text.byteLength_cons, utf8Size_eq_one h.1, ih h.2, List.length_cons]
    omega

/-- Taking characters of a class ends where the class ends. -/
theorem takeWhile_run {p : Char → Bool} {run rest : List Char} (h : ∀ c ∈ run, p c = true)
    (hrest : ∀ c ∈ rest.head?, p c = false) :
    (run ++ rest).takeWhile p = run ∧ (run ++ rest).dropWhile p = rest := by
  rw [List.takeWhile_append_of_pos h, List.dropWhile_append_of_pos h]
  cases rest with
  | nil => simp
  | cons c cs => simp [hrest c rfl]

theorem head?_dropWhile (p : Char → Bool) (cs : List Char) :
    ∀ c ∈ (cs.dropWhile p).head?, p c = false := by
  intro c hc
  have h := List.head?_dropWhile_not p cs
  rw [Option.mem_def.mp hc] at h
  exact h

theorem forall_mem_takeWhile (p : Char → Bool) (cs : List Char) :
    ∀ c ∈ cs.takeWhile p, p c = true :=
  List.all_eq_true.mp List.all_takeWhile

/-! ### One lexeme -/

/-- What the scanner makes of a lexeme in front of `rest`. -/
def taken (l : Lexeme) (rest : List Char) : Next :=
  match l.token? with
  | .ok t => .token t rest
  | .error v => .violation v

/-- The scanner takes a lexeme as it is spelled. -/
theorem lexeme_of_spelling {kind : Lexeme.Kind} {text rest : List Char}
    (h : Spelling kind text rest) (offset : Nat) :
    ∃ c cs, text = c :: cs ∧ (Text.isAsciiBlank c = false ∧ c ≠ '#') ∧
      lexeme offset c (cs ++ rest) =
        taken ⟨kind, ⟨offset, offset + Text.byteLength text⟩⟩ rest := by
  cases h with
  | operator op => cases op <;> exact ⟨_, _, rfl, by decide, rfl⟩
  | openParen => exact ⟨_, _, rfl, by decide, rfl⟩
  | closeParen => exact ⟨_, _, rfl, by decide, rfl⟩
  | @number c cs _ hdigits hrest =>
    have hcodes : ∀ d ∈ c :: cs, 48 ≤ d.toNat ∧ d.toNat ≤ 57 :=
      fun d hd => code_of_isDigit (hdigits d hd)
    have hc := hcodes c List.mem_cons_self
    have hlength : Text.byteLength (c :: cs) = (c :: cs).length :=
      byteLength_of_codes fun d hd => by
        have := hcodes d hd
        omega
    obtain ⟨htake, hdrop⟩ :=
      takeWhile_run (fun d hd => hdigits d (List.mem_cons_of_mem c hd)) hrest
    refine ⟨c, cs, rfl, isAsciiBlank_eq_false (by omega), ?_⟩
    simp only [lexeme, punctuation?_eq_none hc.1, hdigits c List.mem_cons_self,
      if_true, htake, hdrop, taken, Lexeme.token?, hlength, Text.readInt64?_eq]
    cases Text.int64? (Text.digitsValue (c :: cs)) <;> rfl
  | @ident c cs _ hstart hpart hrest =>
    have hc := code_of_isIdentStart hstart
    have hdigit : c.isDigit = false := by
      refine Bool.eq_false_iff.mpr fun hdigit => ?_
      have := code_of_isDigit hdigit
      omega
    have hlength : Text.byteLength (c :: cs) = (c :: cs).length :=
      byteLength_of_codes fun d hd => by
        rcases List.mem_cons.mp hd with rfl | hd
        · exact hc.2
        · exact (code_of_isIdentPart (hpart d hd)).2
    obtain ⟨htake, hdrop⟩ := takeWhile_run hpart hrest
    refine ⟨c, cs, rfl, isAsciiBlank_eq_false (by omega), ?_⟩
    simp only [lexeme, punctuation?_eq_none (Nat.le_trans (by decide) hc.1), hdigit,
      Bool.false_eq_true, if_false, hstart, if_true, htake, hdrop, taken, Lexeme.token?,
      hlength]
    rfl

theorem lexeme_ne_finished {offset stop : Nat} {c : Char} {cs : List Char} :
    lexeme offset c cs ≠ .finished stop := by
  unfold lexeme
  split
  · simp
  · split
    · dsimp only
      split <;> simp
    · split <;> simp

/-- Where the scanner takes a token, a lexeme is spelled. -/
theorem spelling_of_lexeme {offset : Nat} {c : Char} {cs rest : List Char} {t : Token}
    (h : lexeme offset c cs = .token t rest) :
    ∃ kind text, c :: cs = text ++ rest ∧ Spelling kind text rest := by
  by_cases hdigit : c.isDigit = true
  · have hcode := code_of_isDigit hdigit
    simp only [lexeme, punctuation?_eq_none hcode.1, hdigit, if_true] at h
    split at h
    · obtain ⟨-, rfl⟩ := Next.token.inj h
      have hdigits : ∀ d ∈ c :: cs.takeWhile Char.isDigit, d.isDigit = true :=
        List.forall_mem_cons.mpr ⟨hdigit, forall_mem_takeWhile _ _⟩
      refine ⟨_, c :: cs.takeWhile Char.isDigit, ?_,
        .number hdigits (head?_dropWhile _ cs)⟩
      rw [List.cons_append, List.takeWhile_append_dropWhile]
    · cases h
  · by_cases hstart : Token.isIdentStart c = true
    · have hcode := code_of_isIdentStart hstart
      simp only [lexeme, punctuation?_eq_none (Nat.le_trans (by decide) hcode.1),
        hdigit, hstart, if_true] at h
      obtain ⟨-, rfl⟩ := Next.token.inj h
      have hpart : ∀ d ∈ cs.takeWhile Token.isIdentPart, Token.isIdentPart d = true :=
        forall_mem_takeWhile _ cs
      refine ⟨_, c :: cs.takeWhile Token.isIdentPart, ?_,
        .ident hstart hpart (head?_dropWhile _ cs)⟩
      rw [List.cons_append, List.takeWhile_append_dropWhile]
    · cases hpunctuation : Token.punctuation? c with
      | none => simp [lexeme, hpunctuation, hdigit, hstart] at h
      | some kind =>
        simp only [lexeme, hpunctuation] at h
        obtain ⟨-, rfl⟩ := Next.token.inj h
        unfold Token.punctuation? at hpunctuation
        split at hpunctuation
        · exact ⟨_, _, rfl, .operator .add _⟩
        · exact ⟨_, _, rfl, .operator .sub _⟩
        · exact ⟨_, _, rfl, .operator .mul _⟩
        · exact ⟨_, _, rfl, .operator .div _⟩
        · exact ⟨_, _, rfl, .openParen _⟩
        · exact ⟨_, _, rfl, .closeParen _⟩
        · cases hpunctuation

/-! ### Whole texts -/

section

variable {offset : Nat} {text : List Char}

theorem scanFrom_of_finished {stop : Nat} (h : next offset text = .finished stop) :
    scanFrom offset text = ⟨[], .ok stop⟩ := by
  rw [scanFrom]
  split <;> simp_all

theorem scanFrom_of_violation {v : Violation} (h : next offset text = .violation v) :
    scanFrom offset text = ⟨[], .error v⟩ := by
  rw [scanFrom]
  split <;> simp_all

theorem scanFrom_of_token {t : Token} {rest : List Char}
    (h : next offset text = .token t rest) :
    scanFrom offset text =
      ⟨t :: (scanFrom t.span.stop rest).tokens, (scanFrom t.span.stop rest).ending⟩ := by
  rw [scanFrom]
  split <;> simp_all

end

/-- The scan of lexemes: their tokens, up to the first numeral that does not fit. -/
def ofLexemes (stop : Nat) : List Lexeme → Scan
  | [] => ⟨[], .ok stop⟩
  | l :: more =>
    match l.token? with
    | .ok t => ⟨t :: (ofLexemes stop more).tokens, (ofLexemes stop more).ending⟩
    | .error v => ⟨[], .error v⟩

/-- The identifiers that a scan has taken. -/
def identifiers (scan : Scan) : List String :=
  scan.tokens.filterMap fun t =>
    match t.kind with
    | .ident name => some name
    | _ => none

theorem mem_identifiers {scan : Scan} {t : Token} {name : String} (ht : t ∈ scan.tokens)
    (hkind : t.kind = .ident name) : name ∈ scan.identifiers :=
  List.mem_filterMap.mpr ⟨t, ht, by rw [hkind]⟩

/-- The lexemes of a text determine its scan. -/
theorem scanFrom_of_spelled {offset stop : Nat} {text : List Char} {lexemes : List Lexeme}
    (h : Spelled offset text lexemes stop) :
    scanFrom offset text = ofLexemes stop lexemes := by
  induction h with
  | @finished offset layout ending hlayout =>
    refine scanFrom_of_finished ?_
    have hsplit := splitLayout_of_layout hlayout (Or.inl rfl)
    rw [List.append_nil] at hsplit
    simp only [next, hsplit]
  | @lexeme offset start next stop layout text rest kind more hlayout hstart htext
    hnext _ ih =>
    obtain ⟨c, cs, rfl, hc, htaken⟩ := lexeme_of_spelling htext start
    have hsplit :
        splitLayout false (layout ++ (c :: cs) ++ rest) = (layout,
          c :: (cs ++ rest)) := by
      rw [List.append_assoc]
      refine splitLayout_of_layout hlayout (Or.inr ⟨rfl, fun d hd => ?_⟩)
      obtain rfl := Option.some.inj hd
      exact hc
    have hnexteq : Scan.next offset (layout ++ (c :: cs) ++ rest) =
        taken ⟨kind, ⟨start, next⟩⟩ rest := by
      simp only [Scan.next, hsplit, ← hstart, htaken, ← hnext]
    unfold taken at hnexteq
    rw [ofLexemes]
    by_cases hfits : Lexeme.Fits ⟨kind, ⟨start, next⟩⟩
    · rw [Lexeme.token?_of_fits hfits] at hnexteq ⊢
      rw [scanFrom_of_token hnexteq]
      simp only [Lexeme.token, ih]
    · rw [Lexeme.token?_of_not_fits hfits] at hnexteq ⊢
      rw [scanFrom_of_violation hnexteq]

/-- Lexemes that fit are scanned to the end. -/
theorem ofLexemes_of_fits {stop : Nat} {lexemes : List Lexeme}
    (h : ∀ l ∈ lexemes, l.Fits) :
    ofLexemes stop lexemes = ⟨lexemes.map Lexeme.token, .ok stop⟩ := by
  induction lexemes with
  | nil => rfl
  | cons l more ih =>
    rw [List.forall_mem_cons] at h
    simp only [ofLexemes, Lexeme.token?_of_fits h.1, ih h.2, List.map_cons]

/-- The first lexeme that does not fit is where the scan ends. -/
theorem ofLexemes_of_not_fits {stop : Nat} {before more : List Lexeme} {l : Lexeme}
    (hbefore : ∀ m ∈ before, m.Fits) (hl : ¬ l.Fits) :
    ofLexemes stop (before ++ l :: more) =
      ⟨before.map Lexeme.token, .error ⟨.valueOutOfRange, l.span⟩⟩ := by
  induction before with
  | nil =>
    simp only [List.nil_append, ofLexemes, Lexeme.token?_of_not_fits hl, List.map_nil]
  | cons m before ih =>
    rw [List.forall_mem_cons] at hbefore
    simp only [List.cons_append, ofLexemes, Lexeme.token?_of_fits hbefore.1, ih hbefore.2,
      List.map_cons]

/-- A scan that reaches the end has met no numeral that does not fit. -/
theorem fits_of_ofLexemes {stop stop' : Nat} {lexemes : List Lexeme}
    (h : (ofLexemes stop lexemes).ending = .ok stop') : ∀ l ∈ lexemes, l.Fits := by
  induction lexemes with
  | nil => simp
  | cons l more ih =>
    by_cases hfits : l.Fits
    · simp only [ofLexemes, Lexeme.token?_of_fits hfits] at h
      exact List.forall_mem_cons.mpr ⟨hfits, ih h⟩
    · simp only [ofLexemes, Lexeme.token?_of_not_fits hfits] at h
      cases h

/-- Behind the layout of a text, the scanner takes the lexeme that is spelled there. -/
theorem spelling_of_next {offset : Nat} {text rest : List Char} {t : Token}
    (h : next offset text = .token t rest) :
    ∃ layout spelled kind start, text = layout ++ spelled ++ rest ∧
      Layout false false layout ∧
      start = offset + Text.byteLength layout ∧ Spelling kind spelled rest ∧
      Lexeme.Fits ⟨kind, ⟨start, start + Text.byteLength spelled⟩⟩ ∧
      t = Lexeme.token ⟨kind, ⟨start, start + Text.byteLength spelled⟩⟩ := by
  obtain ⟨ending, hlayout, hrest⟩ := layout_of_splitLayout false text
  have happend := splitLayout_append false text
  unfold next at h
  dsimp only at h
  split at h
  · cases h
  · rename_i c cs hsplit
    rw [hsplit] at hrest happend
    obtain ⟨rfl, -⟩ := hrest.resolve_left (by simp)
    obtain ⟨kind, spelled, hcs, hspelling⟩ := spelling_of_lexeme h
    obtain ⟨c', cs', rfl, -, htaken⟩ := lexeme_of_spelling hspelling
      (offset + Text.byteLength (splitLayout false text).1)
    have hcs' : cs = cs' ++ rest := (List.cons.inj hcs).2
    obtain rfl : c = c' := (List.cons.inj hcs).1
    refine ⟨_, c :: cs', kind, _, ?_, hlayout, rfl, hspelling, ?_⟩
    · rw [List.append_assoc, List.cons_append, ← hcs']
      exact happend.symm
    · rw [hcs', htaken] at h
      unfold taken at h
      by_cases hfits :
        Lexeme.Fits ⟨kind, ⟨offset + Text.byteLength (splitLayout false text).1,
          offset + Text.byteLength (splitLayout false text).1 +
            Text.byteLength (c :: cs')⟩⟩
      · rw [Lexeme.token?_of_fits hfits] at h
        obtain ⟨rfl, -⟩ := Next.token.inj h
        exact ⟨hfits, rfl⟩
      · rw [Lexeme.token?_of_not_fits hfits] at h
        cases h

/-- Where the scanner finds nothing more, the text is layout. -/
theorem layout_of_next {offset stop : Nat} {text : List Char}
    (h : next offset text = .finished stop) :
    ∃ ending, Layout false ending text ∧ stop = offset + Text.byteLength text := by
  obtain ⟨ending, hlayout, -⟩ := layout_of_splitLayout false text
  have happend := splitLayout_append false text
  unfold next at h
  dsimp only at h
  split at h
  · rename_i hsplit
    rw [hsplit, List.append_nil] at happend
    rw [happend] at hlayout h
    exact ⟨ending, hlayout, (Next.finished.inj h).symm⟩
  · exact absurd h lexeme_ne_finished

/-- What the scanner rejects in front of the text `rest`: a numeral that does not fit, or
a character that begins no lexeme and no layout. -/
inductive Rejected : ParseError.Cause → List Char → List Char → Prop
  | number {value : Nat} {run rest : List Char} (h : Spelling (.number value) run rest)
      (hvalue : Int64.maxValue.toInt < value) : Rejected .valueOutOfRange run rest
  | character {c : Char} {rest : List Char} (hpunctuation : Token.punctuation? c = none)
      (hdigit : c.isDigit = false) (hstart : Token.isIdentStart c = false)
      (hblank : Text.isAsciiBlank c = false) (hhash : c ≠ '#') :
    Rejected (.illegalCharacter c) [c] rest

/-- Where the scanner finds a violation behind the layout of a text, it is over what it
rejects. -/
theorem violation_of_next {offset : Nat} {text : List Char} {v : Violation}
    (h : next offset text = .violation v) :
    ∃ layout run rest start, text = layout ++ run ++ rest ∧ Layout false false layout ∧
      start = offset + Text.byteLength layout ∧ Rejected v.cause run rest ∧
      v.span = ⟨start, start + Text.byteLength run⟩ := by
  obtain ⟨ending, hlayout, hrest⟩ := layout_of_splitLayout false text
  have happend := splitLayout_append false text
  unfold next at h
  dsimp only at h
  split at h
  · cases h
  · rename_i c cs hsplit
    rw [hsplit] at hrest happend
    obtain ⟨rfl, hno⟩ := hrest.resolve_left (by simp)
    obtain ⟨hblank, hhash⟩ := hno c rfl
    unfold lexeme at h
    split at h
    · cases h
    · rename_i hpunctuation
      split at h
      · rename_i hdigit
        have hdigits : ∀ d ∈ c :: cs.takeWhile Char.isDigit, d.isDigit = true :=
          List.forall_mem_cons.mpr ⟨hdigit, forall_mem_takeWhile _ _⟩
        have hspelling := Spelling.number hdigits (head?_dropWhile _ cs)
        have hlength : Text.byteLength (c :: cs.takeWhile Char.isDigit) =
            (c :: cs.takeWhile Char.isDigit).length :=
          byteLength_of_codes fun d hd => by
            have := code_of_isDigit (hdigits d hd)
            omega
        dsimp only at h
        split at h
        · cases h
        · rename_i hvalue
          obtain rfl := Next.violation.inj h
          rw [Text.readInt64?_eq, Text.int64?_natCast_eq_none_iff] at hvalue
          refine ⟨_, _, cs.dropWhile Char.isDigit, _, ?_, hlayout, rfl,
            .number hspelling hvalue, by rw [hlength]⟩
          rw [List.append_assoc, List.cons_append, List.takeWhile_append_dropWhile,
            happend]
      · rename_i hdigit
        split at h
        · cases h
        · rename_i hstart
          obtain rfl := Next.violation.inj h
          refine ⟨_, [c], cs, _, ?_, hlayout, rfl,
            .character hpunctuation (Bool.eq_false_iff.mpr hdigit)
            (Bool.eq_false_iff.mpr hstart)
              hblank hhash, rfl⟩
          rw [List.append_assoc, List.singleton_append, happend]

/-- The violations of the scanner: a character that begins no token, or a numeral that
does not fit. -/
def IsViolation (cause : ParseError.Cause) : Prop :=
  cause = .valueOutOfRange ∨ ∃ c, cause = .illegalCharacter c

theorem Rejected.isViolation {cause : ParseError.Cause} {run rest : List Char}
    (h : Rejected cause run rest) : IsViolation cause := by
  cases h with
  | number => exact Or.inl rfl
  | character => exact Or.inr ⟨_, rfl⟩

/-- The scan of a text takes the lexemes of a part of it: of the whole text, or of what
stands in front of a violation. -/
theorem exists_spelled (offset : Nat) (text : List Char) :
    ∃ before rest lexemes, text = before ++ rest ∧
      Spelled offset before lexemes (offset + Text.byteLength before) ∧
      (∀ l ∈ lexemes, l.Fits) ∧ (scanFrom offset text).tokens = lexemes.map Lexeme.token ∧
      (rest = [] ∧ (scanFrom offset text).ending = .ok (offset + Text.byteLength before) ∨
        ∃ v, (scanFrom offset text).ending = .error v ∧
          v.span.start = offset + Text.byteLength before ∧ IsViolation v.cause) := by
  fun_induction scanFrom offset text with
  | case1 offset text stop hnext =>
    obtain ⟨ending, hlayout, rfl⟩ := layout_of_next hnext
    exact ⟨text, [], [], (List.append_nil text).symm, .finished hlayout, by simp, rfl,
      Or.inl ⟨rfl, rfl⟩⟩
  | case2 offset text v hnext =>
    obtain ⟨layout, run, rest, start, rfl, hlayout, rfl, hrejected, hspan⟩ :=
      violation_of_next hnext
    exact ⟨layout, run ++ rest, [], List.append_assoc _ _ _,
      .finished hlayout, by simp, rfl,
      Or.inr ⟨v, rfl, congrArg Span.start hspan, hrejected.isViolation⟩⟩
  | case3 offset text t rest hnext tail ih =>
    obtain ⟨layout, spelled, kind, start, rfl, hlayout, hstart, hspelling, hfits, rfl⟩ :=
      spelling_of_next hnext
    obtain ⟨before, rest, lexemes, rfl, hspelled, hmore, htokens, hending⟩ := ih
    have hlength : offset + Text.byteLength (layout ++ spelled ++ before) =
        start + Text.byteLength spelled + Text.byteLength before := by
      rw [Text.byteLength_append, Text.byteLength_append]
      omega
    refine ⟨layout ++ spelled ++ before, rest, _ :: lexemes,
      (List.append_assoc _ _ _).symm, ?_, List.forall_mem_cons.mpr ⟨hfits, hmore⟩,
      congrArg _ htokens, ?_⟩
    · rw [hlength]
      exact .lexeme hlayout hstart hspelling.of_append rfl hspelled
    · rw [hlength]
      exact hending

/-- A scan that does not reach the end of a text has stopped at a violation of its own. -/
theorem isViolation_of_ending {offset : Nat} {text : List Char} {v : Violation}
    (h : (scanFrom offset text).ending = .error v) : IsViolation v.cause := by
  obtain ⟨before, rest, lexemes, -, -, -, -, ⟨-, hok⟩ | ⟨w, hw, -, hcause⟩⟩ :=
    exists_spelled offset text
  · cases hok.symm.trans h
  · obtain rfl := Except.error.inj (hw.symm.trans h)
    exact hcause

/-- A scan that reaches the end of a text has found lexemes that the text is spelled
with. -/
theorem spelled_of_scanFrom {offset stop : Nat} {text : List Char}
    (h : (scanFrom offset text).ending = .ok stop) :
    ∃ lexemes, Spelled offset text lexemes stop := by
  obtain ⟨before, rest, lexemes, rfl, hspelled, -, -, ⟨rfl, hending⟩ | ⟨v, hending, -⟩⟩ :=
    exists_spelled offset text
  · rw [hending] at h
    rw [List.append_nil, ← Except.ok.inj h]
    exact ⟨lexemes, hspelled⟩
  · rw [hending] at h
    cases h

end Scan

end Abacus
