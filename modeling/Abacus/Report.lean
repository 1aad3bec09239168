import Abacus.ParseError
import Abacus.Position

set_option autoImplicit false

/-!
# Reports

A parse error is shown as a short report: a heading, the position, the source lines that
the error's span touches with carets under the characters inside the span, and the help if
there is one.  An error about a parameter name shows the name in place of an excerpt.

An excerpt is computed with checked cuts and differences, which fail only if the span
begins inside a character; no span of a parse error does.  Line numbers and carets are
moved to the right by filling them up with blanks.  A text can be filled up to
`Excerpt.widest` characters and no further, so there is no report of an error with more
characters than that in front of it in its line.
-/

namespace Abacus

namespace Excerpt

/-- The carets under a source line: how many characters stand in front of them, and how
many there are. -/
structure Marks where
  indent : Nat
  count : Nat
  deriving DecidableEq, Repr

/-- A source line in an excerpt, without the carriage returns at its end. -/
structure Row where
  number : Nat
  text : List Char
  marks : Option Marks
  deriving DecidableEq, Repr

end Excerpt

/-- The part of a source that a report shows. -/
structure Excerpt where
  position : Position
  /-- The number of digits of the greatest line number. -/
  width : Nat
  rows : List Excerpt.Row
  deriving DecidableEq, Repr

namespace Excerpt

/-- The difference of two numbers of which the second is not greater. -/
def difference? (a b : Nat) : Option Nat :=
  if b ≤ a then some (a - b) else none

/-- A line without the carriage returns at its end. -/
def trimReturns (line : List Char) : List Char :=
  (line.reverse.dropWhile (· = '\r')).reverse

/-- The number of line feeds among the bytes from `start` up to `stop`. -/
def lineFeedsBetween? (source : List Char) (start stop : Nat) : Option Nat :=
  if start ≤ stop ∧ stop ≤ Text.byteLength source then
    difference? (Text.lineFeedsBefore stop source) (Text.lineFeedsBefore start source)
  else
    none

/-- The row for the line that begins at `lineStart`, when the span runs from `start` to
`stop`.  An empty span is marked with one caret; otherwise there is a caret for each
character of the line inside the span. -/
def row? (start stop lineStart number : Nat) (line : List Char) : Option Row := do
  let text := trimReturns line
  let textStop := lineStart + Text.byteLength text
  let first ← difference? (max start lineStart) lineStart
  let last ← difference? (max (min stop textStop) lineStart) lineStart
  let indented ← Text.before? text (min first (Text.byteLength text))
  let count :=
    if stop = start then 1 else ((Text.slice? text first last).map List.length).getD 0
  return ⟨number, text, if count = 0 then none else some ⟨indented.length, count⟩⟩

/-- The rows for the lines of a source from the one that begins at `lineStart` on, up to
the line that holds the byte at `last`.  In every round one line is cut out of the source
and made into a row. -/
def rows? (source : List Char) (start stop last lineStart number : Nat) :
    Option (List Row) :=
  match _hremaining : Text.after? source lineStart with
  | none => none
  | some remaining => do
    let lineStop := lineStart + Text.byteLength (remaining.takeWhile (· ≠ '\n'))
    let line ← Text.slice? source lineStart lineStop
    let row ← row? start stop lineStart number line
    if last ≤ lineStop ∨ lineStop = Text.byteLength source then
      return [row]
    else
      let below ← rows? source start stop last (lineStop + 1) (number + 1)
      return row :: below
termination_by Text.byteLength source - lineStart
decreasing_by
  -- A line that is not the last one ends in front of the end of the source.
  have hlength := Text.byteLength_of_after? _hremaining
  have hle := Text.byteLength_takeWhile_le (· ≠ '\n') remaining
  omega

/-- The excerpt for a span.  The span is cut to the source, and a reversed one is taken as
empty. -/
def ofSpan? (source : List Char) (span : Span) : Option Excerpt := do
  let length := Text.byteLength source
  let start := min span.start length
  let stop := max start (min span.stop length)
  let last := if start < stop then stop - 1 else start
  let position ← position? source start
  let lineFeeds ← lineFeedsBetween? source start last
  let before ← Text.before? source start
  let rows ← rows? source start stop last (Text.lastLineStart before) position.line
  return ⟨position, (Text.digits (position.line + lineFeeds)).length, rows⟩

/-- The greatest width to which a text is filled up. -/
def widest : Nat := 65535

/-- A text behind as many blanks as fill it up to a width; this fails if the width is too
great. -/
def padded? (width : Nat) (text : String) : Option String :=
  if width ≤ widest then
    some (String.ofList (List.replicate (width - text.length) ' ') ++ text)
  else
    none

/-- One line of a report, behind a margin of `width` characters. -/
def marginLine? (width : Nat) (margin content : String) : Option String :=
  (padded? width margin).map (· ++ content ++ "\n")

/-- The lines of one row. -/
def Row.render? (width : Nat) (row : Row) : Option String := do
  let content := if row.text.isEmpty then " |" else " | " ++ String.ofList row.text
  let source ← marginLine? width (Text.decimal row.number) content
  match row.marks with
  | none => return source
  | some marks =>
    let indent ← padded? marks.indent ""
    let carets := String.ofList (List.replicate marks.count '^')
    let below ← marginLine? width "" (" | " ++ indent ++ carets)
    return source ++ below

/-- The position and the rows of an excerpt. -/
def render? (e : Excerpt) : Option String := do
  let place := Text.decimal e.position.line ++ ":" ++ Text.decimal e.position.column
  let locator ← marginLine? e.width "" ("--> " ++ place)
  let gutter ← marginLine? e.width "" " |"
  let rows ← e.rows.mapM (·.render? e.width)
  return locator ++ gutter ++ String.join rows

end Excerpt

namespace ParseError

/-- The first line of a report. -/
def heading (e : ParseError) : String :=
  "error[" ++ e.cause.code ++ "] " ++ e.cause.category ++ ": " ++ e.cause.message ++ "\n"

/-- The line that shows the help; nothing if there is no help. -/
def helpLine? (e : ParseError) (width : Nat) : Option String :=
  match e.cause.help with
  | some help => Excerpt.marginLine? width "" (" = help: " ++ help)
  | none => some ""

/-- The report of an error.  There is none if the span begins inside a character, or if
something in the excerpt is wider than can be filled up. -/
def report? (e : ParseError) : Option String :=
  match e.cause.argument with
  | some (index, name) => do
    let place := " --> argument #" ++ Text.decimal index ++ " \x60" ++ name ++ "\x60\n"
    let help ← e.helpLine? 1
    return e.heading ++ place ++ help
  | none => do
    let excerpt ← Excerpt.ofSpan? e.source.toList e.span
    let rendered ← excerpt.render?
    let help ← e.helpLine? excerpt.width
    return e.heading ++ rendered ++ help

end ParseError

end Abacus
