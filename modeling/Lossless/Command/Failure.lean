import Lossless.Cst.Error

/-!
# Failures of commands

Why a command fails, and how that is said: in one sentence, with the cause in a
paragraph of its own where there is one.
-/

namespace Lossless

namespace Command

/-- Why a file could not be read. -/
inductive ReadError where
  | noSuchFile
  | permissionDenied
  | notADirectory
  | isDirectory
  | nameTooLong
  | notText
  | other (text : String)
  deriving DecidableEq, Repr

def ReadError.message : ReadError → String
  | noSuchFile => "No such file or directory (os error 2)"
  | permissionDenied => "Permission denied (os error 13)"
  | notADirectory => "Not a directory (os error 20)"
  | isDirectory => "Is a directory (os error 21)"
  | nameTooLong => "File name too long (os error 36)"
  | notText => "stream did not contain valid UTF-8"
  | other text => text

/-- The deepest tree that is written as JSON. -/
def maxJsonDepth : Nat := 1024

/-- Why a command fails. -/
inductive Failure where
  | notRead (path : String) (cause : ReadError)
  | noProgram (path : String)
  | tooDeep (path : String) (depth : Nat)
  | checksFailed (path : String) (count : Nat)
  | noGrammar (path : String) (cause : GrammarError)
  | noSchema (error : CstError)
  | notBuilt (path : String) (cause : CstError)
  | notStripped (path : String) (cause : CstError)
  deriving DecidableEq, Repr

namespace Failure

/-- What a failure says first. -/
def headline : Failure → String
  | notRead path _ => "failed to read " ++ Text.backquote path
  | noProgram path => "failed to parse " ++ Text.backquote path
  | tooDeep path depth =>
    Text.backquote path ++ " nests " ++ toString depth ++
      " levels deep, JSON output stops at " ++ toString maxJsonDepth
  | checksFailed path count =>
    toString count ++ " check(s) failed for " ++ Text.backquote path
  | noGrammar path _ => "invalid grammar table " ++ Text.backquote path
  | noSchema e => e.message
  | notBuilt path _ => "failed to build the CST of " ++ Text.backquote path
  | notStripped path _ => "failed to project " ++ Text.backquote path

/-- What a failure says about its cause. -/
def cause? : Failure → Option String
  | notRead _ cause => some cause.message
  | noGrammar _ cause => some cause.message
  | notBuilt _ cause | notStripped _ cause => some cause.message
  | noProgram _ | tooDeep .. | checksFailed .. | noSchema _ => none

/-- A text with every line indented by four spaces. -/
def indented (text : String) : String :=
  "    " ++ String.join (text.toList.map fun c =>
    if c = '\n' then "\n    " else String.singleton c)

/-- A failure as it is printed last: what it says first, and its cause in a
paragraph of its own. -/
def describe (f : Failure) : String :=
  "Error: " ++ f.headline ++
    match f.cause? with
    | some cause => "\n\nCaused by:\n" ++ indented cause
    | none => ""

end Failure

end Command

end Lossless
