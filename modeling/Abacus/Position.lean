import Abacus.Text.Offset

set_option autoImplicit false

/-!
# Lines and columns

People find a place in a text by line and column, both counted from one; columns count
characters.  Lines end at line feeds.  A position exists for every offset at which a
character begins, and every offset past the end stands for the end.
-/

namespace Abacus

/-- A place in a text as it is shown to people. -/
structure Position where
  line : Nat
  column : Nat
  deriving DecidableEq, Repr, Inhabited

namespace Text

/-- The number of bytes up to and including the last line feed of a text: where its last
line begins. -/
def lastLineStart (text : List Char) : Nat :=
  byteLength (text.reverse.dropWhile (· ≠ '\n'))

/-- The lines of a text without the line feeds between them; a text has at least one
line. -/
def lines : List Char → List (List Char)
  | [] => [[]]
  | c :: cs =>
    if c = '\n' then [] :: lines cs
    else
      match lines cs with
      | [] => [[c]]
      | line :: more => (c :: line) :: more

/-- The number of line feeds among the first bytes of a text. -/
def lineFeedsBefore : Nat → List Char → Nat
  | 0, _ => 0
  | _ + 1, [] => 0
  | offset + 1, c :: cs =>
    (if c = '\n' then 1 else 0) + lineFeedsBefore (offset + 1 - c.utf8Size) cs

end Text

/-- The position of an offset in a text; there is none inside a character. -/
def position? (source : List Char) (offset : Nat) : Option Position := do
  let before ← Text.before? source (min offset (Text.byteLength source))
  let line ← Text.after? before (Text.lastLineStart before)
  return ⟨before.count '\n' + 1, line.length + 1⟩

end Abacus
