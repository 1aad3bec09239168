import Abacus.Text.DefaultIgnorable
import Abacus.Text.GraphemeExtend
import Abacus.Text.Printable

set_option autoImplicit false

/-!
# Quoted text

A message that quotes a character or a text from the user shows it between quote marks
with every character escaped that could not be seen or would break the line.  The quote
mark in use and the backslash are escaped, as are the null character, tab, line feed and
carriage return; any other character that is not `isVisible` is written as its code point
in lower-case hexadecimal digits.
-/

namespace Abacus.Text

/-- The halfwidth katakana voiced and semi-voiced sound marks.  They extend the character
before them, but each takes a column of its own. -/
def isHalfwidthSoundMark (c : Char) : Bool :=
  c == '\uff9e' || c == '\uff9f'

/-- Whether the character shows as itself wherever it stands: it is printable, a display
does not ignore it, and it has a column of its own instead of attaching to the character
before it. -/
def isVisible (c : Char) : Bool :=
  isPrintable c && !isDefaultIgnorable c &&
    (!isGraphemeExtend c || isHalfwidthSoundMark c)

/-- The hexadecimal digits of a number, lower case and without leading zeros. -/
def hexDigits (n : Nat) : List Char :=
  Nat.toDigits 16 n

/-- The escape that names a character by its code point. -/
def codePointEscape (c : Char) : List Char :=
  ['\\', 'u', '\x7b'] ++ hexDigits c.toNat ++ ['\x7d']

/-- How a character is written inside a text that stands between the given quote marks. -/
def escapeChar (quote c : Char) : List Char :=
  if c = '\x00' then ['\\', '0']
  else if c = '\t' then ['\\', 't']
  else if c = '\r' then ['\\', 'r']
  else if c = '\n' then ['\\', 'n']
  else if c = '\\' || c = quote then ['\\', c]
  else if isVisible c then [c]
  else codePointEscape c

/-- A text between the given quote marks. -/
def quote (mark : Char) (text : List Char) : String :=
  String.ofList ([mark] ++ text.flatMap (escapeChar mark) ++ [mark])

/-- A text in double quotes. -/
def quoted (text : String) : String :=
  quote '"' text.toList

/-- A character in single quotes. -/
def quotedChar (c : Char) : String :=
  quote '\'' [c]

end Abacus.Text
