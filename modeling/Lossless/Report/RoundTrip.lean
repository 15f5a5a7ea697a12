import Lossless.Ast.Equality
import Lossless.Cst.Build
import Lossless.Cst.Source
import Lossless.Cst.Strip
import Lossless.Report.Diagnostic
import Lossless.Report.SourceFile

/-!
# Round-trip checks

A concrete tree has to keep both the text and the syntax tree that it was built
from. A trial builds it under one schema, writes its source and strips it again;
`Trial.faults` says what was lost. Several schemas must also agree with each
other on the source that they write.
-/

namespace Lossless

namespace RoundTrip

/-- What can be wrong with the concrete tree of one schema. -/
inductive Fault where
  | notBuilt (error : CstError)
  /-- The source differs from the text of the file, for the first
  time at an offset. -/
  | otherText (offset : Nat)
  | notWritten (error : CstError)
  | otherAst
  | notStripped (error : CstError)
  deriving DecidableEq, Repr

/-- What came of one schema. -/
structure Trial where
  strategy : String
  faults : List Fault
  /-- The source of the concrete tree, if it has one. -/
  source? : Option String
  deriving DecidableEq, Repr

def Trial.passed (t : Trial) : Bool := t.faults.isEmpty

/-- The byte offset at which two texts differ first; if one ends before that,
the end of the shorter. -/
def firstDifference (offset : Nat) : List Char → List Char → Nat
  | c :: cs, d :: ds =>
    if c = d then firstDifference (offset + c.utf8Size) cs ds else offset
  | _, _ => offset

/-- What is wrong with the source of a concrete tree. -/
def sourceFault? (text : String) : Except CstError String → Option Fault
  | .ok source =>
    if source = text then none
    else some (.otherText (firstDifference 0 text.toList source.toList))
  | .error e => some (.notWritten e)

/-- What is wrong with the syntax tree inside a concrete tree. -/
def stripFault? (ast : Ast) : Except CstError Ast → Option Fault
  | .ok stripped => if stripped.equal ast then none else some .otherAst
  | .error e => some (.notStripped e)

/-- Tries one schema on a text, its syntax tree and its tokens. -/
def trial (text : String) (ast : Ast) (tokens : List SourceToken)
    (s : Schema) : Trial :=
  match Cst.build s ast tokens with
  | .error e => ⟨s.strategy.name, [.notBuilt e], none⟩
  | .ok t =>
    ⟨s.strategy.name, (sourceFault? text (t.source s)).toList ++
        (stripFault? ast t.strip).toList,
      (t.source s).toOption⟩

/-- The strategies of trials that wrote a source, with it. -/
def sources (trials : List Trial) : List (String × String) :=
  trials.filterMap fun t => t.source?.map ((t.strategy, ·))

/-- The strategies whose source is not that of the first one that wrote any,
each with that first one. -/
def disagreements (trials : List Trial) : List (String × String) :=
  match sources trials with
  | [] => []
  | (first, source) :: others =>
    (others.filter (·.2 ≠ source)).map fun (strategy, _) => (first, strategy)

/-- The trials of some schemas on a file, its syntax tree and its tokens. -/
def trials (schemas : List Schema) (file : SourceFile) (ast : Ast)
    (tokens : List SourceToken) : List Trial :=
  schemas.map (trial file.text ast tokens)

/-- The number of trials that failed and of strategies that disagree
with the first. -/
def failures (trials : List Trial) : Nat :=
  trials.countP (!·.passed) + (disagreements trials).length

/-! ### Reporting -/

/-- A piece of a report, for one of the two ways out. -/
inductive Notice where
  | out (line : String)
  | err (line : String)
  | diagnostic (d : Diagnostic)
  deriving DecidableEq, Repr

/-- The diagnostic of an error that points into the text. -/
def diagnostic? (e : CstError) : Option Diagnostic :=
  e.range?.map fun range => ⟨e.message, range, "here"⟩

/-- The report of a fault of a strategy. -/
def Fault.notices (strategy : String) : Fault → List Notice
  | notBuilt e =>
    ((diagnostic? e).map Notice.diagnostic).toList ++
      [.err (strategy ++ ": " ++ e.message)]
  | otherText offset =>
    [.diagnostic ⟨strategy ++ ": reconstructed text differs from the source",
      ⟨offset, offset + 1⟩, "first difference"⟩]
  | notWritten e | notStripped e => [.err (strategy ++ ": " ++ e.message)]
  | otherAst => [.err (strategy ++ ": projection differs from the parsed AST")]

/-- The report of a trial on a file. -/
def Trial.notices (path : String) (t : Trial) : List Notice :=
  if t.passed then [.out ("ok " ++ path ++ " (" ++ t.strategy ++ ")")]
  else t.faults.flatMap (Fault.notices t.strategy)

/-- The report of some trials on a file: each trial, then the disagreements. -/
def notices (path : String) (trials : List Trial) : List Notice :=
  trials.flatMap (Trial.notices path) ++
    (disagreements trials).map fun (first, strategy) =>
      .err (first ++ " and " ++ strategy ++ " reconstruct different text")

end RoundTrip

end Lossless
