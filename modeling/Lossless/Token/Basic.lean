import Lossless.Text.Place
import Lossless.Token.Kind

/-!
# Tokens

A token is a piece of text with its kind and its place. A parser gives each
token a role: it either carries meaning for the tree or is an extra, which the
tree does not record.
-/

namespace Lossless

/-- A smallest piece of a text. -/
structure Token where
  kind : TokenKind
  text : String
  span : Text.Span
  deriving DecidableEq, Repr, Inhabited

/-- Whether a token is a leaf of the tree or an extra. -/
inductive Role where
  | semantic
  | extra
  deriving DecidableEq, Repr, Inhabited

/-- The word for a role in listings. -/
def Role.name : Role → String
  | .semantic => "semantic"
  | .extra => "extra"

/-- A token with its role. -/
structure SourceToken where
  role : Role
  token : Token
  deriving DecidableEq, Repr, Inhabited

namespace SourceToken

def isExtra (t : SourceToken) : Bool := t.role == .extra

def text (t : SourceToken) : String := t.token.text

def range (t : SourceToken) : Text.Range := t.token.span.range

end SourceToken

end Lossless
