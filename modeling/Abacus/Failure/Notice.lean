import Abacus.Failure

set_option autoImplicit false

/-!
# Notices

On a terminal a diagnostic is announced by a notice: its code in brackets, a word for its
severity and its message.  On a colour terminal the part in front of the message is
coloured by severity.  A diagnostic has a label for its own span, unless it stands
nowhere, and one for each related place; help is shown only below a label.
-/

namespace Abacus

namespace Severity

/-- The word that announces a diagnostic. -/
def announcement : Severity → String
  | error => "Error"
  | warning => "Warning"
  | info => "Advice"

/-- The terminal sequence that switches to the colour of a severity. -/
def colour : Severity → String
  | error => "\x1b[31m"
  | warning => "\x1b[33m"
  | info => "\x1b[38;5;147m"

/-- The terminal sequence that ends a colour. -/
def colourEnd : String := "\x1b[0m"

end Severity

namespace Diagnostic

/-- What stands in front of the message of a diagnostic. -/
def announcement (d : Diagnostic) : String :=
  let code := match d.code with
    | some code => "[" ++ code ++ "] "
    | none => ""
  code ++ d.severity.announcement ++ ":"

/-- The notice of a diagnostic. -/
def notice (d : Diagnostic) : String :=
  d.announcement ++ " " ++ d.message

/-- The notice of a diagnostic on a colour terminal. -/
def colouredNotice (d : Diagnostic) : String :=
  d.severity.colour ++ d.announcement ++ Severity.colourEnd ++ " " ++ d.message

/-- Whether a place in the source is shown for the diagnostic. -/
def isLabelled (d : Diagnostic) : Bool :=
  d.span != .nowhere || !d.related.isEmpty

end Diagnostic

namespace Failure

/-- The notices of a failure's diagnostics. -/
def notices (f : Failure) : List String :=
  f.diagnostics.map Diagnostic.notice

/-- The notices of a failure's diagnostics on a colour terminal. -/
def colouredNotices (f : Failure) : List String :=
  f.diagnostics.map Diagnostic.colouredNotice

/-- The diagnostics for which a part of the source is shown. -/
def labelled (f : Failure) : List Diagnostic :=
  f.diagnostics.filter Diagnostic.isLabelled

/-- The help texts that are shown. -/
def helps (f : Failure) : List String :=
  f.labelled.filterMap Diagnostic.help

end Failure

end Abacus
