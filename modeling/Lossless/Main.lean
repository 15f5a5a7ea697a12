import Lossless.Command.Arguments
import Lossless.Command.Run

/-!
# The command line

Reads the file that a command names, runs the command on its content and prints
what comes of it, with diagnostics in their plain layout. A command line that
names no command ends with status two.
-/

namespace Lossless.CommandLine

/-- The number of an error of the system, which may be given with
its sign turned. -/
def errorNumber (code : UInt32) : UInt32 := min code (-code)

/-- The cause of a failure to read a file. -/
def readError : IO.Error → Command.ReadError
  | .noFileOrDirectory .. => .noSuchFile
  | .permissionDenied .. => .permissionDenied
  | .userError _ => .notText
  | .inappropriateType _ code details | .invalidArgument _ code details =>
    match errorNumber code with
    | 20 => .notADirectory
    | 21 => .isDirectory
    | 36 => .nameTooLong
    | _ => .other details
  | e => .other (toString e)

/-- The content of a file, or why it could not be read. -/
def read (path : String) : IO (Except Command.ReadError String) :=
  try
    return .ok (← IO.FS.readFile path)
  catch e =>
    return .error (readError e)

/-- The text of a report, without colours. -/
def reportText : Command.Report → String
  | .line text => text
  | .diagnostic d f => d.render f.path f.text

/-- Prints a transcript and ends with its status. -/
def print (t : Command.Transcript) : IO UInt32 := do
  IO.print t.stdout
  for report in t.err do
    IO.eprintln (reportText report)
  if t.failure?.isSome then
    IO.eprintln t.message
  return t.status.toUInt32

end Lossless.CommandLine

/-- Runs the command that the arguments ask for. -/
def main (arguments : List String) : IO UInt32 := do
  match Lossless.Command.ofArguments arguments with
  | none =>
    IO.eprintln
      ("usage: lossless (tokens | ast | cst | project | check | schema) " ++
        "[arguments]")
    return 2
  | some command =>
    let input ← match command.input? with
      | some path => Lossless.CommandLine.read path
      | none => pure (.error .noSuchFile)
    Lossless.CommandLine.print (command.run input)
