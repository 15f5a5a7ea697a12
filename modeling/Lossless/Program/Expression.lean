import Lossless.Ast.Estree
import Lossless.Program.Stream

/-!
# Expressions

An expression is an identifier, a literal or a call. Parentheses around an
expression are extras, those around the arguments of a call carry meaning. Each
expression takes one of the levels that blocks and expressions share; a chain of
calls is read in a loop and takes no further level.
-/

namespace Lossless

namespace Parser

/-- An identifier. A word of the language is none. -/
def identifier : Parser Ast := fun s =>
  match accept? .identifier .semantic s with
  | some r => .ok (r.map fun t => .identifier t.text)
  | none =>
    match s.ahead with
    | t :: _ =>
      if t.kind.isWord then .error (s.error (.reservedName t.text))
      else .error (s.unexpected TokenKind.identifier.describe)
    | [] => .error (s.unexpected TokenKind.identifier.describe)

/-- A literal token of a kind. Its value is worked out once the token has been
passed; an error still points at the token. -/
def literal (kind : TokenKind) : Parser Ast := fun s => do
  let r ← expect kind .semantic s
  match Literal.value kind r.value.text with
  | .ok value => .ok (r.map fun t => .literal value t.text)
  | .error error => .error (s.error (.literal error))

/-- An identifier, a literal, or an expression in parentheses,
which are extras. -/
def primary (expression : Parser Ast) : Parser Ast := fun s =>
  if s.kind = .identifier then identifier s
  else if s.kind.isLiteral then literal s.kind s
  else if s.kind = .leftParen then do
    let opening ← expect .leftParen .extra s
    let inner ← expression opening.next
    let closing ← expect .rightParen .extra inner.next
    .ok (opening.followedBy (inner.followedBy (closing.map fun _ =>
      inner.value)))
  else .error (s.unexpected "expression")

/-- The calls of a callee that has been read. -/
def calls (argument : Parser Ast) (callee : Ast) :
    OptionalParser Ast := fun s =>
  if s.kind = .leftParen then do
    let arguments ← parenthesized argument s
    let chain ← calls argument
      (.callExpression callee arguments.value) arguments.next
    .ok (arguments.trailedBy chain).reach
  else .ok (.stay callee)
termination_by s => s.size
decreasing_by exact arguments.shorter

/-- An expression, with a number of levels left for it and what it holds. -/
def expression : Nat → Parser Ast
  | 0 => fun s => .error (s.error .tooDeep)
  | levels + 1 => fun s => do
    let callee ← primary (expression levels) s
    let chain ← calls (expression levels) callee.value callee.next
    .ok (callee.trailedBy chain)

end Parser

end Lossless
