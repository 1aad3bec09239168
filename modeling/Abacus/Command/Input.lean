set_option autoImplicit false

/-!
# Lines of the input

The input is a sequence of bytes.  A line reaches up to a line feed or to the end of the
input.  The line feed and one carriage return in front of it do not belong to the line; a
carriage return at the end of the input does.
-/

namespace Abacus

/-- Splits bytes behind each line feed; what follows the last one counts only if it is not
empty. -/
def splitBehindLineFeeds : List UInt8 → List (List UInt8)
  | [] => []
  | b :: bs =>
    if b = 10 then [b] :: splitBehindLineFeeds bs
    else
      match splitBehindLineFeeds bs with
      | [] => [[b]]
      | line :: more => (b :: line) :: more

/-- A line without the line feed at its end and without one carriage return in front of
that. -/
def dropLineEnd (line : List Char) : List Char :=
  match line.reverse with
  | '\n' :: '\r' :: rest => rest.reverse
  | '\n' :: rest => rest.reverse
  | _ => line

/-- The lines of an input; a line that is not valid UTF-8 cannot be read. -/
def inputLines (bytes : List UInt8) : List (Option String) :=
  (splitBehindLineFeeds bytes).map fun line =>
    (String.fromUTF8? ⟨line.toArray⟩).map fun text =>
      String.ofList (dropLineEnd text.toList)

end Abacus
