import Abacus.Failure

set_option autoImplicit false

/-!
# Failures in full

A failure can be spelled out with everything that it carries, on one line.  Texts are
quoted, records are written as their name and their fields, lists stand in brackets, and
an optional text is marked as present or missing.
-/

namespace Abacus

open Text (decimal quoted)

/-- A span in words. -/
def Span.describe (s : Span) : String :=
  "Span(" ++ decimal s.start ++ ".." ++ decimal s.stop ++ ")"

/-- An optional text in words. -/
def describeOptional : Option String → String
  | none => "None"
  | some text => "Some(" ++ quoted text ++ ")"

/-- A list in words, from its members in words. -/
def describeList (members : List String) : String :=
  "[" ++ String.intercalate ", " members ++ "]"

/-- A record in words, from its name and its fields in words. -/
def describeRecord (name : String) (fields : List (String × String)) : String :=
  name ++ " \x7b " ++ String.intercalate ", " (fields.map fun (field, value) =>
    field ++ ": " ++ value)
    ++ " \x7d"

/-- A severity in words. -/
def Severity.describe : Severity → String
  | .error => "Error"
  | .warning => "Warning"
  | .info => "Info"

/-- A related place in words. -/
def RelatedPlace.describe (r : RelatedPlace) : String :=
  describeRecord "RelatedInfo" [("span", r.span.describe), ("message", quoted r.message)]

/-- A diagnostic in words. -/
def Diagnostic.describe (d : Diagnostic) : String :=
  describeRecord "Diagnostic"
    [("severity", d.severity.describe), ("message", quoted d.message),
      ("span", d.span.describe),
      ("related", describeList (d.related.map RelatedPlace.describe)),
      ("help", describeOptional d.help), ("code", describeOptional d.code)]

/-- A failure in words. -/
def Failure.describe : Failure → String
  | .api text => "Api(" ++ quoted text ++ ")"
  | .compilation diagnostics source =>
    describeRecord "Compilation"
      [("diagnostics", describeList (diagnostics.map Diagnostic.describe)),
        ("source", quoted source)]
  | .runtime diagnostic source =>
    describeRecord "Runtime" [("diagnostic", diagnostic.describe),
      ("source", quoted source)]
  | .resourceExceeded text => "ResourceExceeded(" ++ quoted text ++ ")"

end Abacus
