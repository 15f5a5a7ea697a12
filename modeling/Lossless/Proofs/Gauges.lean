import Lossless.Program.Statement
import Lossless.Proofs.Stateful

/-!
# A parser that counts

A parser in a loop can count how deep blocks and expressions nest, and how many
functions it is inside, instead of being told how many levels are left. The
counters must then go back on every way out of a block, an expression or a
function, also when it fails. Here the parser of programs is written in this
way: with its loops, each of which goes on for as many turns as there are given,
and with a log of the blocks and expressions that are opened and closed and of
the turns that its loops take.
-/

namespace Lossless

/-- The number of tokens ahead that matter. -/
def Stream.significant (s : Stream) : Nat :=
  s.ahead.countP fun t => !t.kind.isTrivia

namespace Counting

/-! ### Counters -/

/-- What takes a level. -/
inductive Activation where
  | block
  | expression
  deriving DecidableEq, Repr

/-- The loops of the parser. -/
inductive Loop where
  | statements
  | block
  | parameters
  | arguments
  | calls
  deriving DecidableEq, Repr

/-- What is logged. A turn of a loop is logged at its end, with the numbers of
tokens that matter ahead of it and behind it. -/
inductive Event where
  | opened (activation : Activation)
  | closed (activation : Activation)
  | turn (loop : Loop) (before after : Nat)
  deriving DecidableEq, Repr

/-- Why there is no tree. -/
inductive Fault where
  /-- The text is no program. -/
  | refused (error : SyntaxError)
  /-- A counter should have gone below zero. -/
  | underflow
  /-- A loop needs more turns, or a block or an expression more room,
  than were given. -/
  | unfinished

/-- The state of the parser. -/
structure Gauge where
  stream : Stream
  /-- How many blocks and expressions are open. -/
  nesting : Nat
  /-- How many functions are open. -/
  functions : Nat
  /-- What has happened, latest first. -/
  log : List Event

/-- A step of the parser. -/
abbrev Gauged (α : Type) := Stateful Fault Gauge α

variable {α : Type}

def look : Gauged Stream := fun g => (.ok g.stream, g)

/-- The kind of the next token. -/
def kind : Gauged TokenKind := fun g => (.ok g.stream.kind, g)

/-- Whether a line ends in front of the next token. -/
def newline : Gauged Bool := fun g => (.ok g.stream.newline, g)

/-- Fails because of what is ahead. -/
def refuse (error : Stream → SyntaxError) : Gauged α :=
  fun g => (.error (.refused (error g.stream)), g)

/-- Fails because something else than the next token was expected. -/
def unexpected (what : String) : Gauged α := refuse (·.unexpected what)

/-- Passes the next token and gives it a role, and returns its text. At the end
nothing is passed. -/
def bump (role : Role) : Gauged String := fun g =>
  match g.stream.ahead with
  | t :: ts => (.ok t.text, { g with stream := g.stream.pass role t ts })
  | [] => (.ok "", g)

/-- Passes the next token if it has a kind. -/
def eat (expected : TokenKind) : Gauged Bool := do
  if (← kind) = expected then
    let _ ← bump .semantic
    return true
  else return false

/-- Passes the next token, which must have a kind, and gives it a role. -/
def expect (expected : TokenKind) (role : Role) : Gauged String := do
  if (← kind) = expected then bump role else unexpected expected.describe

def note (event : Event) :
    Gauged Unit := fun g => (.ok (), { g with log := event :: g.log })

/-- Enters a block or an expression. -/
def nest (activation : Activation) : Gauged Unit := fun g =>
  if g.nesting = maxNesting then
    (.error (.refused (g.stream.error .tooDeep)), g)
  else (.ok (),
    { g with nesting := g.nesting + 1, log := .opened activation :: g.log })

/-- Leaves a block or an expression. -/
def unnest (activation : Activation) : Gauged Unit := fun g =>
  match g.nesting with
  | 0 => (.error .underflow, g)
  | nesting + 1 =>
    (.ok (), { g with nesting, log := .closed activation :: g.log })

def enterFunction :
    Gauged Unit := fun g => (.ok (), { g with functions := g.functions + 1 })

def exitFunction : Gauged Unit := fun g =>
  match g.functions with
  | 0 => (.error .underflow, g)
  | functions + 1 => (.ok (), { g with functions })

def inFunction : Gauged Bool := fun g => (.ok (decide (0 < g.functions)), g)

/-- A refusal as a value, so that something can be done before
it is passed on. -/
def caught (step : Gauged α) : Gauged (Except SyntaxError α) := fun g =>
  match step g with
  | (.ok a, g') => (.ok (.ok a), g')
  | (.error (.refused e), g') => (.ok (.error e), g')
  | (.error fault, g') => (.error fault, g')

/-- Passes a refusal on. -/
def release (outcome : Except SyntaxError α) : Gauged α := fun g =>
  match outcome with
  | .ok a => (.ok a, g)
  | .error e => (.error (.refused e), g)

/-- Enters and leaves something around a step, also when the step is refused. -/
def guarded (enter leave : Gauged Unit) (step : Gauged α) : Gauged α := do
  enter
  let outcome ← caught step
  leave
  release outcome

/-- A block or an expression, which takes a level and gives it back. -/
def nested (activation : Activation) (step : Gauged α) : Gauged α :=
  guarded (nest activation) (unnest activation) step

/-- The body of a function. -/
def inside (step : Gauged α) : Gauged α :=
  guarded enterFunction exitFunction step

/-! ### Loops -/

/-- One turn of a loop. -/
def turn (loop : Loop) (step : Gauged α) : Gauged α := do
  let before ← look
  let a ← step
  let behind ← look
  note (.turn loop before.significant behind.significant)
  return a

/-- Takes turns while a test holds, for no more turns than are given. -/
def whileLoop (loop : Loop) (test : TokenKind → Bool) (step : α → Gauged α) :
    Nat → α → Gauged α
  | 0, _ => throw .unfinished
  | turns + 1, a => do
    if test (← kind) then
      let a ← turn loop (step a)
      whileLoop loop test step turns a
    else return a

/-- Reads items as long as commas follow them, for no more turns
than are given. -/
def commaLoop (loop : Loop) (item : Gauged α) : Nat → List α → Gauged (List α)
  | 0, _ => throw .unfinished
  | turns + 1, items => do
    let (items, more) ← turn loop (do
      let a ← item
      let more ← eat .comma
      return (items ++ [a], more))
    if more then commaLoop loop item turns items else return items

/-- Reads the items in front of a closing parenthesis. -/
def commaList (loop : Loop) (item : Gauged α) (turns : Nat) :
    Gauged (List α) := do
  if (← kind) = .rightParen then return [] else commaLoop loop item turns []

/-! ### Expressions -/

def identifier : Gauged Ast := do
  let next ← kind
  if next = .identifier then
    let name ← bump .semantic
    return .identifier name
  else if next.isWord then
    refuse fun s => s.error (.reservedName (match s.ahead with
      | t :: _ => t.text
      | [] => ""))
  else unexpected TokenKind.identifier.describe

/-- A literal of a kind. An error points at the token, which has been passed. -/
def literal (kind : TokenKind) : Gauged Ast := do
  let start ← look
  let raw ← bump .semantic
  match Literal.value kind raw with
  | .ok value => return .literal value raw
  | .error error => throw (.refused (start.error (.literal error)))

def primary (expression : Gauged Ast) : Gauged Ast := do
  let next ← kind
  if next = .identifier then identifier
  else if next.isLiteral then literal next
  else if next = .leftParen then
    let _ ← bump .extra
    let inner ← expression
    let _ ← expect .rightParen .extra
    return inner
  else unexpected "expression"

/-- The calls of a callee that has been read. -/
def calls (expression : Gauged Ast) (turns : Nat) (callee : Ast) : Gauged Ast :=
  whileLoop .calls (· = .leftParen) (fun callee => do
    let _ ← bump .semantic
    let arguments ← commaList .arguments expression turns
    let _ ← expect .rightParen .semantic
    return .callExpression callee arguments) turns callee

/-- An expression, for no more turns and room than are given. -/
def expression (turns : Nat) : Nat → Gauged Ast
  | 0 => throw .unfinished
  | room + 1 => nested .expression do
    let callee ← primary (expression turns room)
    calls (expression turns room) turns callee

/-! ### Statements -/

def terminator : Gauged Unit := do
  let next ← kind
  if next = .semicolon then
    let _ ← bump .extra
  else
    if next = .rightBrace ∨ next = .endOfFile ∨ (← newline) then return ()
    else unexpected TokenKind.semicolon.describe

def returnStatement (expression : Gauged Ast) : Gauged Ast := do
  let _ ← bump .semantic
  if (← newline) ∨ !(← kind).startsExpression then
    terminator
    return .returnStatement none
  else
    let argument ← expression
    terminator
    return .returnStatement (some argument)

def expressionStatement (expression : Gauged Ast) : Gauged Ast := do
  let value ← expression
  terminator
  return .expressionStatement value

def functionDeclaration (turns : Nat) (block : Gauged Ast) : Gauged Ast := do
  let _ ← bump .semantic
  let name ← identifier
  let _ ← expect .leftParen .semantic
  let params ← commaList .parameters identifier turns
  let _ ← expect .rightParen .semantic
  let body ← inside block
  return .functionDeclaration name params body

def statement (turns : Nat) (expression block : Gauged Ast) : Gauged Ast := do
  match ← kind with
  | .functionWord => functionDeclaration turns block
  | .returnWord =>
    if ← inFunction then returnStatement expression
    else refuse (·.error .returnOutsideFunction)
  | .leftBrace => block
  | .semicolon =>
    let _ ← bump .semantic
    return .emptyStatement
  | _ => expressionStatement expression

/-- The statements of a block and the brace behind them. -/
def blockBody (turns : Nat) (statement : Gauged Ast) : Gauged Ast := do
  let _ ← expect .leftBrace .semantic
  let body ← whileLoop .block (· ≠ .rightBrace) (fun body => do
    if (← kind) = .endOfFile then unexpected TokenKind.rightBrace.describe
    else
      let first ← statement
      return body ++ [first]) turns []
  let _ ← bump .semantic
  return .blockStatement body

/-- A block, for no more turns and room than are given. -/
def block (turns : Nat) : Nat → Gauged Ast
  | 0 => throw .unfinished
  | room + 1 => nested .block (blockBody turns
    (statement turns (expression turns room) (block turns room)))

def program (turns room : Nat) : Gauged Ast := do
  let body ← whileLoop .statements (· ≠ .endOfFile) (fun body => do
    let first ← statement turns (expression turns room) (block turns room)
    return body ++ [first]) turns []
  return .program body

/-- The program of a text, for no more turns and room than are given, and the
state in which the parser ends. -/
def run (turns room : Nat) (text : String) : Except Fault Ast × Gauge :=
  program turns room ⟨.ofTokens (tokenize text) text.utf8ByteSize, 0, 0, []⟩

end Counting

end Lossless
