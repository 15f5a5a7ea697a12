import Lossless.Command.Basic
import Lossless.Command.Failure
import Lossless.Cst.Outline
import Lossless.Program.Statement
import Lossless.Report.RoundTrip
import Lossless.Schema.LabelTable

/-!
# Running commands

`Command.run` works out the transcript of a command from the content of its
file: the lines that it prints, what it reports and how it fails, if it does.
The file is read first, then the schema is made, then the program is read; the
first of these to fail ends the run. How a diagnostic looks on a screen is left
to whoever prints the transcript.
-/

namespace Lossless

namespace Command

/-- What a run reports on the standard error: a line, or a diagnostic about a
file. -/
inductive Report where
  | line (text : String)
  | diagnostic (d : Diagnostic) (file : SourceFile)
  deriving DecidableEq, Repr

/-- What a run prints, line by line, what it reports, and how it fails, if it
does. -/
structure Transcript where
  out : List String
  err : List Report
  failure? : Option Failure
  deriving DecidableEq, Repr

namespace Transcript

/-- The exit status. -/
def status (t : Transcript) : Nat := if t.failure?.isSome then 1 else 0

/-- What is printed on the standard output. -/
def stdout (t : Transcript) : String := String.join (t.out.map (· ++ "\n"))

/-- What is printed last on the standard error, if the run fails. -/
def message (t : Transcript) : String :=
  match t.failure? with
  | some failure => failure.describe
  | none => ""

/-- A run that prints some lines. -/
def lines (out : List String) : Transcript := ⟨out, [], none⟩

end Transcript

/-- A run that may have failed before it printed anything: with reports for the
standard error. -/
abbrev Run := Except (List Report × Failure)

/-- The transcript of a run. -/
def finish : Run Transcript → Transcript
  | .ok t => t
  | .error (err, failure) => ⟨[], err, some failure⟩

/-- The file of a command. -/
def readFile (path : String) : Except ReadError String → Run SourceFile
  | .ok text => .ok ⟨path, text⟩
  | .error e => .error ([], .notRead path e)

/-- The program in a file. -/
def readProgram (f : SourceFile) : Run Program :=
  match Program.parse f.text with
  | .ok p => .ok p
  | .error e =>
    .error ([.diagnostic ⟨e.message, e.range, "here"⟩ f], .noProgram f.path)

/-- A schema that has been checked. -/
def checked : Except CstError Schema → Run Schema
  | .ok s => .ok s
  | .error e => .error ([], .noSchema e)

/-- The concrete tree of the program in a file. -/
def buildTree (s : Schema) (f : SourceFile) (p : Program) : Run Cst :=
  match Cst.build s p.ast p.tokens with
  | .ok t => .ok t
  | .error e =>
    .error (((RoundTrip.diagnostic? e).map (Report.diagnostic · f)).toList,
      .notBuilt f.path e)

/-- A text filled up with spaces to a width. -/
def padRight (width : Nat) (text : String) : String :=
  text.pushn ' ' (width - text.length)

/-- A token on a line: its role, kind, range, places and text. -/
def tokenLine (t : SourceToken) : String :=
  let span := t.token.span
  padRight 8 t.role.name ++ " " ++ padRight 16 t.token.kind.name ++
    " " ++ span.range.describe ++ " " ++
    span.start.describe ++ "-" ++ span.stop.describe ++ " " ++ Text.quote t.text

/-- A syntax tree as JSON, if it is not too deep. -/
def printAst (path : String) (ast : Ast) : Run Transcript :=
  let depth := Branching.depth ast
  if maxJsonDepth < depth then .error ([], .tooDeep path depth)
  else .ok (.lines [ast.toJson.pretty])

/-- The transcript of a report on a file. -/
def ofNotices (f : SourceFile) (failure? : Option Failure)
    (notices : List RoundTrip.Notice) : Transcript where
  out := notices.filterMap fun
    | .out line => some line
    | .err _ | .diagnostic _ => none
  err := notices.filterMap fun
    | .out _ => none
    | .err line => some (.line line)
    | .diagnostic d => some (.diagnostic d f)
  failure? := failure?

/-- The grammar that a schema is made for: the one in a file, or
the bundled one. -/
def readGrammar (grammar : Option String) (input : Except ReadError String) :
    Run Grammar :=
  match grammar with
  | none => .ok .functions
  | some path => do
    let f ← readFile path input
    match Grammar.ofText f.text with
    | .ok g => .ok g
    | .error e => .error ([], .noGrammar path e)

/-- Runs a command on the content of its file. A command without a file does
not look at it. -/
def run (input : Except ReadError String) : Command → Transcript
  | tokens path => finish do
    let f ← readFile path input
    let p ← readProgram f
    .ok (.lines (p.tokens.map tokenLine))
  | ast path => finish do
    let f ← readFile path input
    let p ← readProgram f
    printAst path p.ast
  | cst path name => finish do
    let f ← readFile path input
    let s ← checked name.schema
    let p ← readProgram f
    let t ← buildTree s f p
    .ok (.lines t.outlineLines)
  | project path name => finish do
    let f ← readFile path input
    let s ← checked name.schema
    let p ← readProgram f
    let t ← buildTree s f p
    match t.strip with
    | .ok stripped => printAst path stripped
    | .error e => .error ([], .notStripped path e)
  | check path name => finish do
    let f ← readFile path input
    let names := match name with
      | some name => [name]
      | none => StrategyName.all
    let schemas ← names.mapM fun name => checked name.schema
    let p ← readProgram f
    let trials := RoundTrip.trials schemas f p.ast p.tokens
    let failures := RoundTrip.failures trials
    let failure? := if failures = 0 then none
      else some (.checksFailed path failures)
    .ok (ofNotices f failure? (RoundTrip.notices path trials))
  | schema name grammar => finish do
    let g ← readGrammar grammar input
    let s ← checked (Schema.make g name.strategy)
    .ok (.lines [s.labelTable.toJson.pretty])

end Command

end Lossless
