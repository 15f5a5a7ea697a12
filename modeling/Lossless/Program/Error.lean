import Lossless.Program.Literal

/-!
# Syntax errors

Why a text is no program, and where. The place is a token of the text, or the
empty range at its end.
-/

namespace Lossless

/-- What stands where something else was expected. -/
inductive Found where
  | endOfFile
  | unterminatedComment
  | unterminatedString
  | token (text : String)
  deriving DecidableEq, Repr

/-- How a message names what it found. -/
def Found.describe : Found → String
  | endOfFile => "end of file"
  | unterminatedComment => "unterminated comment"
  | unterminatedString => "unterminated string literal"
  | token text => Text.backquote text

/-- How a message names a token: an unknown one by what it fails to end. -/
def Found.ofToken (t : Token) : Found :=
  if t.kind = .unknown then
    match t.text.toList with
    | '/' :: '*' :: _ => .unterminatedComment
    | '"' :: _ | '\'' :: _ => .unterminatedString
    | _ => .token t.text
  else .token t.text

/-- The deepest that blocks and expressions may nest in each other. -/
def maxNesting : Nat := 256

/-- Why a text is no program. -/
inductive SyntaxCause where
  | expected (what : String) (found : Found)
  | returnOutsideFunction
  | reservedName (word : String)
  | tooDeep
  | literal (error : LiteralError)
  deriving DecidableEq, Repr

/-- The wording of a cause. -/
def SyntaxCause.message : SyntaxCause → String
  | expected what found => "expected " ++ what ++ ", found " ++ found.describe
  | returnOutsideFunction => "`return` outside of a function"
  | reservedName word =>
    "reserved word " ++ Text.backquote word ++
      " cannot be used as an identifier"
  | tooDeep => "nesting deeper than " ++ toString maxNesting ++ " levels"
  | literal error => error.message

/-- The first error of a text. -/
structure SyntaxError where
  cause : SyntaxCause
  range : Text.Range
  deriving DecidableEq, Repr

def SyntaxError.message (e : SyntaxError) : String := e.cause.message

end Lossless
