import Lossless.Proofs.Respacing
import Lossless.Proofs.Restoring

/-!
# Parsers as readings

A parser says with each outcome that the stream has become shorter. Without
these notes it is a plain `Reading`: a step from a stream to a value and a
stream, or to an error. The readings of the parsers are written down here with
the readings that they are made of.
-/

namespace Lossless

namespace Outcome

/-- A choice between two steps that may fail is a choice between
what follows them. -/
@[simp] theorem ite_bind {ε α β : Type} (c : Prop) [Decidable c]
    (x y : Except ε α) (f : α → Except ε β) :
    (if c then x else y) >>= f = if c then x >>= f else y >>= f := by
  split <;> rfl

end Outcome

/-- A step from a stream to a value and what is left of the stream,
or to an error. -/
abbrev Reading (α : Type) := StateT Stream (Except SyntaxError) α

/-- What a parser reads, without the note that the stream gets shorter. -/
def Parser.reading {α : Type} (p : Parser α) : Reading α := fun s => do
  let r ← p s
  .ok (r.value, r.next)

/-- What a parser reads, without the note that the stream gets no longer. -/
def OptionalParser.reading {α : Type}
    (p : OptionalParser α) : Reading α := fun s => do
  let r ← p s
  .ok (r.value, r.next)

namespace Reading

variable {α β : Type}

/-- The kind of the next token. -/
def kind : Reading TokenKind := fun s => .ok (s.kind, s)

/-- Whether a line ends in front of the next token. -/
def newline : Reading Bool := fun s => .ok (s.newline, s)

/-- Fails at the next token. -/
def fail (cause : SyntaxCause) : Reading α := fun s => .error (s.error cause)

/-- Fails because something else than the next token was expected. -/
def unexpected (what : String) : Reading α :=
  fun s => .error (s.unexpected what)

@[simp] theorem kind_apply (s : Stream) : kind s = .ok (s.kind, s) := rfl

@[simp] theorem newline_apply (s : Stream) :
    newline s = .ok (s.newline, s) := rfl

@[simp] theorem fail_apply (cause : SyntaxCause) (s : Stream) :
    (fail cause : Reading α) s = .error (s.error cause) := rfl

@[simp] theorem unexpected_apply (what : String) (s : Stream) :
    (unexpected what : Reading α) s = .error (s.unexpected what) := rfl

@[simp] theorem pure_apply (a : α) (s : Stream) :
    (pure a : Reading α) s = .ok (a, s) := rfl

@[simp] theorem bind_apply (m : Reading α) (f : α → Reading β) (s : Stream) :
    (m >>= f) s = m s >>= fun r => f r.1 r.2 := rfl

@[simp] theorem map_apply (m : Reading α) (f : α → β) (s : Stream) :
    (f <$> m) s = m s >>= fun r => .ok (f r.1, r.2) := rfl

@[simp] theorem ite_apply (c : Prop) [Decidable c] (m m' : Reading α)
    (s : Stream) : (if c then m else m') s = if c then m s else m' s := by
  split <;> rfl

end Reading

@[simp] theorem OptionalParser.reading_apply {α : Type} (p : OptionalParser α)
    (s : Stream) : p.reading s = p s >>= fun r => .ok (r.value, r.next) := rfl

namespace Parser

open Outcome (ok_bind)

variable {α : Type}

@[simp] theorem reading_apply (p : Parser α) (s : Stream) :
    p.reading s = p s >>= fun r => .ok (r.value, r.next) := rfl

/-- A mark that may be missing is read where it is the next token. -/
theorem accept?_or (kind : TokenKind) (hkind : kind ≠ .endOfFile) (role : Role)
    (s : Stream) :
    (∃ r, s.kind = kind ∧
      accept? kind role s = some r ∧ expect kind role s = .ok r) ∨
      s.kind ≠ kind ∧ accept? kind role s = none := by
  by_cases h : s.kind = kind
  · obtain ⟨t, ts, hahead⟩ : ∃ t ts, s.ahead = t :: ts := by
      refine List.exists_cons_of_ne_nil fun hahead => hkind ?_
      rw [← h, Stream.kind, hahead]
    have ht : t.kind = kind := by rw [← h, Stream.kind, hahead]
    have haccept := accept?_cons kind role hahead
    rw [if_pos ht] at haccept
    exact .inl ⟨_, h, haccept, by rw [expect, haccept]⟩
  · exact .inr ⟨h, accept?_eq_none h role⟩

theorem reading_parenthesized (item : Parser α) :
    (parenthesized item).reading = (do
    let _ ← (expect .leftParen .semantic).reading
    if (← Reading.kind) = .rightParen then
      let _ ← (expect .rightParen .semantic).reading
      return []
    else
      let items ← (separated item).reading
      let _ ← (expect .rightParen .semantic).reading
      return items) := by
  funext s
  simp [parenthesized, Read.followedBy, Read.map]

theorem reading_primary (expression : Parser Ast) :
    (primary expression).reading = (do
    let kind ← Reading.kind
    if kind = .identifier then identifier.reading
    else if kind.isLiteral then (literal kind).reading
    else if kind = .leftParen then
      let _ ← (expect .leftParen .extra).reading
      let inner ← expression.reading
      let _ ← (expect .rightParen .extra).reading
      return inner
    else Reading.unexpected "expression") := by
  funext s
  simp [primary, Read.followedBy, Read.map]

theorem reading_itemsUntil (stop : TokenKind → Bool) (item : Parser α) :
    (itemsUntil stop item).reading = (do
    if stop (← Reading.kind) then return []
    else
      let first ← item.reading
      let others ← (itemsUntil stop item).reading
      return first :: others) := by
  funext s
  rw [OptionalParser.reading_apply, itemsUntil]
  simp [Reach.stay, Reach.map, Read.reach, Read.trailedBy]

theorem reading_separated (item : Parser α) : (separated item).reading = (do
    let first ← item.reading
    if (← Reading.kind) = .comma then
      let _ ← (expect .comma .semantic).reading
      let others ← (separated item).reading
      return first :: others
    else return [first]) := by
  funext s
  rw [reading_apply, separated]
  simp only [Reading.bind_apply, reading_apply, Reading.kind_apply,
    bind_assoc, ok_bind]
  refine bind_congr fun first => ?_
  obtain ⟨r, h, haccept, hexpect⟩ | ⟨h, haccept⟩ :=
    accept?_or .comma (by decide) .semantic first.next
  · simp [h, haccept, hexpect, Read.followedBy, Read.map]
  · simp [h, haccept, Read.map]

theorem reading_calls (argument : Parser Ast) (callee : Ast) :
    (calls argument callee).reading = (do
    if (← Reading.kind) = .leftParen then
      let arguments ← (parenthesized argument).reading
      (calls argument (.callExpression callee arguments)).reading
    else return callee) := by
  funext s
  rw [OptionalParser.reading_apply, calls]
  simp [Reach.stay, Read.trailedBy, Read.reach]

theorem reading_expression (levels : Nat) :
    (expression (levels + 1)).reading = (do
    let callee ← (primary (expression levels)).reading
    (calls (expression levels) callee).reading) := by
  funext s
  simp [expression, Read.trailedBy]

theorem reading_terminator : terminator.reading = (do
    let kind ← Reading.kind
    if kind = .semicolon then
      let _ ← (expect .semicolon .extra).reading
    else if kind = .rightBrace ∨ kind = .endOfFile ∨
      (← Reading.newline) then return ()
    else Reading.unexpected TokenKind.semicolon.describe) := by
  funext s
  obtain ⟨r, h, haccept, hexpect⟩ | ⟨h, haccept⟩ :=
    accept?_or .semicolon (by decide) .extra s
  · simp [terminator, h, haccept, hexpect, Read.map, Read.reach]
  · simp [terminator, h, haccept, Reach.stay]

theorem reading_returnStatement (levels : Nat) :
    (returnStatement levels).reading = (do
    let _ ← (expect .returnWord .semantic).reading
    if (← Reading.newline) ∨ !(← Reading.kind).startsExpression then
      terminator.reading
      return .returnStatement none
    else
      let argument ← (expression levels).reading
      terminator.reading
      return .returnStatement (some argument)) := by
  funext s
  simp [returnStatement, Read.followedBy, Read.trailedBy, Reach.map]

theorem reading_expressionStatement (levels : Nat) :
    (expressionStatement levels).reading = (do
    let value ← (expression levels).reading
    terminator.reading
    return .expressionStatement value) := by
  funext s
  simp [expressionStatement, Read.trailedBy, Reach.map]

theorem reading_functionDeclaration (body : Parser Ast) :
    (functionDeclaration body).reading = (do
    let _ ← (expect .functionWord .semantic).reading
    let name ← identifier.reading
    let params ← (parenthesized identifier).reading
    let block ← body.reading
    return .functionDeclaration name params block) := by
  funext s
  simp [functionDeclaration, Read.followedBy, Read.map]

theorem reading_statement (levels : Nat) (block : Bool → Parser Ast)
    (inFunction : Bool) :
    (statement levels block inFunction).reading = (do
      match ← Reading.kind with
      | .functionWord => (functionDeclaration (block true)).reading
      | .returnWord =>
        if inFunction then (returnStatement levels).reading
        else Reading.fail .returnOutsideFunction
      | .leftBrace => (block inFunction).reading
      | .semicolon =>
        let _ ← (expect .semicolon .semantic).reading
        return .emptyStatement
      | _ => (expressionStatement levels).reading) := by
  funext s
  simp only [reading_apply, statement, Reading.bind_apply,
    Reading.kind_apply, ok_bind]
  generalize s.kind = kind
  split <;> simp [Read.map]

theorem reading_block (levels : Nat) (inFunction : Bool) :
    (block (levels + 1) inFunction).reading = (do
    let _ ← (expect .leftBrace .semantic).reading
    let body ← (itemsUntil (fun k => k = .rightBrace || k = .endOfFile)
      (statement levels (block levels) inFunction)).reading
    let _ ← (expect .rightBrace .semantic).reading
    return .blockStatement body) := by
  funext s
  simp [block, Read.followedBy, Reach.followedBy, Read.map]

theorem reading_program : program.reading = (do
    let body ← (itemsUntil (· = .endOfFile)
      (statement maxNesting (block maxNesting) false)).reading
    return .program body) := by
  funext s
  simp [program, Reach.map]

end Parser

end Lossless
