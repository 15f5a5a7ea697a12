import Lossless.Program.Expression

/-!
# Statements

A statement is a function, a return inside a function, a block, an empty
statement or an expression. The semicolon behind a return or an expression
is an extra, and may be missing where a line ends or where a brace or the
end of the text follows.
-/

namespace Lossless

namespace Parser

/-- The end of a statement: a semicolon, or a place where none is needed. -/
def terminator : OptionalParser Unit := fun s =>
  match accept? .semicolon .extra s with
  | some r => .ok (r.map fun _ => ()).reach
  | none =>
    if s.kind = .rightBrace ∨ s.kind = .endOfFile ∨
      s.newline then .ok (.stay ())
    else .error (s.unexpected TokenKind.semicolon.describe)

/-- A return. Its argument starts on the same line. -/
def returnStatement (levels : Nat) : Parser Ast := fun s => do
  let word ← expect .returnWord .semantic s
  if word.next.newline ∨ !word.next.kind.startsExpression then
    let ending ← terminator word.next
    .ok (word.trailedBy (ending.map fun _ => .returnStatement none))
  else
    let argument ← expression levels word.next
    let ending ← terminator argument.next
    .ok (word.followedBy (argument.trailedBy (ending.map fun _ =>
      .returnStatement (some argument.value))))

/-- An expression as a statement. -/
def expressionStatement (levels : Nat) : Parser Ast := fun s => do
  let value ← expression levels s
  let ending ← terminator value.next
  .ok (value.trailedBy (ending.map fun _ => .expressionStatement value.value))

/-- A function; `body` reads its block. -/
def functionDeclaration (body : Parser Ast) : Parser Ast := fun s => do
  let word ← expect .functionWord .semantic s
  let name ← identifier word.next
  let params ← parenthesized identifier name.next
  let block ← body params.next
  .ok (word.followedBy (name.followedBy (params.followedBy (block.map
    (.functionDeclaration name.value params.value)))))

/-- A statement with a number of levels left; `block` reads a block, given
whether it is inside a function. -/
def statement (levels : Nat) (block : Bool → Parser Ast) (inFunction : Bool) :
    Parser Ast := fun s =>
  match s.kind with
  | .functionWord => functionDeclaration (block true) s
  | .returnWord =>
    if inFunction then returnStatement levels s
    else .error (s.error .returnOutsideFunction)
  | .leftBrace => block inFunction s
  | .semicolon => do
    let mark ← expect .semicolon .semantic s
    .ok (mark.map fun _ => .emptyStatement)
  | _ => expressionStatement levels s

/-- A block, with a number of levels left for it and what it holds. -/
def block : Nat → Bool → Parser Ast
  | 0 => fun _ s => .error (s.error .tooDeep)
  | levels + 1 => fun inFunction s => do
    let opening ← expect .leftBrace .semantic s
    let ends (k : TokenKind) : Bool := k = .rightBrace || k = .endOfFile
    let body ← itemsUntil ends
      (statement levels (block levels) inFunction) opening.next
    let closing ← expect .rightBrace .semantic body.next
    .ok (opening.followedBy (body.followedBy (closing.map fun _ =>
      .blockStatement body.value)))

/-- The statements up to the end of the text. -/
def program : OptionalParser Ast := fun s => do
  let body ← itemsUntil (· = .endOfFile)
    (statement maxNesting (block maxNesting) false) s
  .ok (body.map .program)

end Parser

/-- A program: its tree, and all tokens of its text with their roles. -/
structure Program where
  ast : Ast
  tokens : List SourceToken

/-- Reads the program of a text, or reports its first syntax error. -/
def Program.parse (text : String) : Except SyntaxError Program := do
  let body ← Parser.program (.ofTokens (tokenize text) text.utf8ByteSize)
  .ok ⟨body.value, body.next.tokens⟩

end Lossless
