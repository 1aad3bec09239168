import Abacus.Command.Input
import Abacus.Command.Session
import Abacus.Failure.Notice

set_option autoImplicit false

/-!
# The command

Reads the command line and the input, runs the session and writes what it printed and
reported.
-/

namespace Abacus

/-- The bytes of a stream up to its end. -/
partial def readAll (stream : IO.FS.Stream) (taken : ByteArray) : IO ByteArray := do
  let chunk ← stream.read 65536
  if chunk.isEmpty then
    return taken
  readAll stream (taken ++ chunk)

/-- Runs a session, reading the input only if no expression is given. -/
def runSession (settings : Settings) : IO UInt32 := do
  let bytes ← match settings.expression with
    | some _ => pure ByteArray.empty
    | none => readAll (← IO.getStdin) ByteArray.empty
  let session := Session.ofSettings settings (inputLines bytes.toList)
  IO.print session.output
  for failure in session.failures do
    let report := if failure.diagnostics.isEmpty then [failure.message] else
      failure.colouredNotices
    for line in report ++ failure.helps.map ("Help: " ++ ·) do
      IO.eprintln line
  if let some error := session.error then
    IO.eprintln ("Error: " ++ error.code ++ ": " ++ error.message)
  return UInt32.ofNat session.exitStatus

/-- The command. -/
def command (arguments : List String) : IO UInt32 :=
  match Settings.parse arguments with
  | .ok settings => runSession settings
  | .error reason => do
    if reason = .displayHelp then IO.println Settings.usage
    else IO.eprintln ("error: " ++ reason.message ++ "\n\n" ++ Settings.usage)
    return UInt32.ofNat reason.exitStatus

end Abacus

/-- The entry point of the command. -/
def main (arguments : List String) : IO UInt32 :=
  Abacus.command arguments
