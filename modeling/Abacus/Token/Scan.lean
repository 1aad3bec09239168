import Abacus.ParseError
import Abacus.Text.Blank
import Abacus.Token

set_option autoImplicit false

/-!
# Scanning

A source text is cut into tokens from left to right.  Between tokens there may be
*layout*: white space and comments, which begin with `#` and last up to the end of the
line.  Literals and identifiers are as long as they can be.  Scanning ends at the end of
the text, or at the first character that begins no token, or at a literal that does not
fit in 64 bits.
-/

namespace Abacus

namespace Scan

/-- Splits off the layout at the front of a text.  The flag says that the text begins
inside a comment; the line feed that ends a comment is itself white space. -/
def splitLayout : Bool → List Char → List Char × List Char
  | _, [] => ([], [])
  | inComment, c :: cs =>
    if inComment || c == '#' || Text.isAsciiBlank c then
      let rest := splitLayout ((inComment || c == '#') && c != '\n') cs
      (c :: rest.1, rest.2)
    else
      ([], c :: cs)

/-- What stands at the front of a text behind its layout. -/
inductive Next where
  /-- Nothing more; the text ends at this offset. -/
  | finished (offset : Nat)
  /-- Something that is no token. -/
  | violation (v : Violation)
  /-- A token, and the text behind it. -/
  | token (t : Token) (rest : List Char)
  deriving DecidableEq, Repr

/-- The token or violation of a text that begins at `offset` with the character `c`, no
layout. -/
def lexeme (offset : Nat) (c : Char) (cs : List Char) : Next :=
  match Token.punctuation? c with
  | some kind => .token ⟨kind, ⟨offset, offset + 1⟩⟩ cs
  | none =>
    if c.isDigit then
      let run := c :: cs.takeWhile Char.isDigit
      let span : Span := ⟨offset, offset + run.length⟩
      match Text.readInt64? run with
      | some value => .token ⟨.int value, span⟩ (cs.dropWhile Char.isDigit)
      | none => .violation ⟨.valueOutOfRange, span⟩
    else if Token.isIdentStart c then
      let run := c :: cs.takeWhile Token.isIdentPart
      .token ⟨.ident (String.ofList run), ⟨offset, offset + run.length⟩⟩
        (cs.dropWhile Token.isIdentPart)
    else
      .violation ⟨.illegalCharacter c, ⟨offset, offset + c.utf8Size⟩⟩

/-- Skips the layout of a text that begins at `offset` and takes what follows. -/
def next (offset : Nat) (text : List Char) : Next :=
  let split := splitLayout false text
  let start := offset + Text.byteLength split.1
  match split.2 with
  | [] => .finished start
  | c :: cs => lexeme start c cs

theorem splitLayout_append (inComment : Bool) (text : List Char) :
    (splitLayout inComment text).1 ++ (splitLayout inComment text).2 = text := by
  induction text generalizing inComment with
  | nil => rfl
  | cons c cs ih =>
    simp only [splitLayout]
    split
    · simp [ih]
    · rfl

theorem splitLayout_length (inComment : Bool) (text : List Char) :
    (splitLayout inComment text).2.length ≤ text.length := by
  have h := congrArg List.length (splitLayout_append inComment text)
  rw [List.length_append] at h
  omega

theorem length_lt_of_lexeme {offset : Nat} {c : Char} {cs rest : List Char} {t : Token}
    (h : lexeme offset c cs = .token t rest) : rest.length < (c :: cs).length := by
  have hdrop (p : Char → Bool) : (cs.dropWhile p).length < (c :: cs).length :=
    Nat.lt_succ_of_le (List.dropWhile_sublist p).length_le
  unfold lexeme at h
  split at h
  · obtain ⟨-, rfl⟩ := Next.token.inj h
    simp
  · split at h
    · dsimp only at h
      split at h
      · obtain ⟨-, rfl⟩ := Next.token.inj h
        exact hdrop _
      · cases h
    · split at h
      · obtain ⟨-, rfl⟩ := Next.token.inj h
        exact hdrop _
      · cases h

/-- Taking a token leaves less text. -/
theorem length_lt_of_next {offset : Nat} {text rest : List Char} {t : Token}
    (h : next offset text = .token t rest) : rest.length < text.length := by
  have hle := splitLayout_length false text
  unfold next at h
  dsimp only at h
  split at h
  · cases h
  · rename_i c cs hsplit
    have hlt := length_lt_of_lexeme h
    rw [hsplit] at hle
    omega

end Scan

/-- The outcome of scanning: the tokens in order, and how the scan ended, which is either
the offset of the end of the text or the violation that stopped it. -/
structure Scan where
  tokens : List Token
  ending : Except Violation Nat

namespace Scan

/-- Scans a text that begins at `offset`. -/
def scanFrom (offset : Nat) (text : List Char) : Scan :=
  match _h : next offset text with
  | .finished stop => ⟨[], .ok stop⟩
  | .violation v => ⟨[], .error v⟩
  | .token t rest =>
    let tail := scanFrom t.span.stop rest
    ⟨t :: tail.tokens, tail.ending⟩
termination_by text.length
decreasing_by exact length_lt_of_next _h

/-- Scans a whole source text. -/
def ofText (text : List Char) : Scan :=
  scanFrom 0 text

end Scan

end Abacus
