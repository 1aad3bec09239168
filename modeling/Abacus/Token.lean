import Abacus.Operator
import Abacus.Span

set_option autoImplicit false

/-!
# Tokens

An expression is written with operators, parentheses, decimal literals and identifiers.  A
token carries its value and the span of the source that it was read from.
-/

namespace Abacus

/-- What a token is, apart from where it stands. -/
inductive Token.Kind where
  | operator (op : Operator)
  | openParen
  | closeParen
  /-- A decimal literal, which fits in 64 bits. -/
  | int (value : Int64)
  | ident (name : String)
  deriving DecidableEq, Repr, Inhabited

/-- A token and its place in the source. -/
structure Token where
  kind : Token.Kind
  span : Span
  deriving DecidableEq, Repr, Inhabited

namespace Token

/-- What messages call a token of this kind. -/
def Kind.describe : Kind → String
  | operator op => String.ofList ['\'', op.symbol, '\'']
  | openParen => "'('"
  | closeParen => "')'"
  | int _ => "integer literal"
  | ident _ => "identifier"

/-- What messages call the end of the input. -/
def describeEnd : String := "end of input"

/-- The characters that may begin an identifier: ASCII letters and the underscore. -/
def isIdentStart (c : Char) : Bool := c.isAlpha || c == '_'

/-- The characters that may stand inside an identifier. -/
def isIdentPart (c : Char) : Bool := c.isAlphanum || c == '_'

/-- Whether a name is spelled as an identifier. -/
def isIdentifier (name : String) : Bool :=
  match name.toList with
  | [] => false
  | c :: cs => isIdentStart c && cs.all isIdentPart

/-- The tokens of one character. -/
def punctuation? : Char → Option Kind
  | '+' => some (.operator .add)
  | '-' => some (.operator .sub)
  | '*' => some (.operator .mul)
  | '/' => some (.operator .div)
  | '(' => some .openParen
  | ')' => some .closeParen
  | _ => none

end Token

end Abacus
