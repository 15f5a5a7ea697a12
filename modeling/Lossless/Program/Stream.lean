import Lossless.Program.Error

/-!
# The tokens in front of a parser

A `Stream` has the tokens behind a position with the roles they were given, and
the tokens from there on. It stands at a token that is no trivia, or at the end:
passing a token gives it a role and passes the trivia behind it as extras,
noting whether a line ended among them. So a parser sees the tokens that matter
only, and no token is lost: what is behind and what is ahead make up all tokens
(`Stream.tokens`).
-/

namespace Lossless

/-- A position between the tokens of a text. -/
structure Stream where
  /-- The tokens behind, latest first. -/
  behind : List SourceToken
  /-- Whether a line ends between the last token passed and the next one. -/
  newline : Bool
  /-- The tokens ahead. -/
  ahead : List Token
  /-- The offset of the end of the text. -/
  textEnd : Nat

namespace Stream

/-- The number of tokens ahead. -/
def size (s : Stream) : Nat := s.ahead.length

/-- Whether a line ends in a token between two others. -/
def endsLine (t : Token) : Bool :=
  t.kind = .lineTerminator ||
    (t.kind = .blockComment && t.text.toList.any Text.isLineTerminator)

/-- Passes the trivia in front of a run of tokens. -/
def skipTrivia (behind : List SourceToken) (newline : Bool) (textEnd : Nat) :
    List Token → Stream
  | [] => ⟨behind, newline, [], textEnd⟩
  | t :: ts =>
    if t.kind.isTrivia then
      skipTrivia (⟨.extra, t⟩ :: behind) (newline || endsLine t) textEnd ts
    else ⟨behind, newline, t :: ts, textEnd⟩

/-- The front of a run of tokens. -/
def ofTokens (tokens : List Token) (textEnd : Nat) : Stream :=
  skipTrivia [] false textEnd tokens

/-- The position behind the token `t`, which is given a role; `ts` are the
tokens behind it. -/
def pass (s : Stream) (role : Role) (t : Token) (ts : List Token) : Stream :=
  skipTrivia (⟨role, t⟩ :: s.behind) false s.textEnd ts

/-- The kind of the next token. -/
def kind (s : Stream) : TokenKind :=
  match s.ahead with
  | t :: _ => t.kind
  | [] => .endOfFile

/-- The range of the next token; at the end it is empty. -/
def range (s : Stream) : Text.Range :=
  match s.ahead with
  | t :: _ => t.span.range
  | [] => .empty s.textEnd

/-- An error at the next token. -/
def error (s : Stream) (cause : SyntaxCause) : SyntaxError := ⟨cause, s.range⟩

/-- The error of finding the next token where something else was expected. -/
def unexpected (s : Stream) (what : String) : SyntaxError :=
  s.error (.expected what (match s.ahead with
    | t :: _ => .ofToken t
    | [] => .endOfFile))

/-- All tokens in order, those ahead as extras. -/
def tokens (s : Stream) :
    List SourceToken := s.behind.reverse ++ s.ahead.map (⟨.extra, ·⟩)

theorem size_skipTrivia_le (behind : List SourceToken) (newline : Bool)
    (textEnd : Nat) (ts : List Token) :
    (skipTrivia behind newline textEnd ts).size ≤ ts.length := by
  fun_induction skipTrivia behind newline textEnd ts with
  | case1 => exact Nat.le_refl _
  | case2 _ _ t ts _ ih => exact Nat.le_succ_of_le ih
  | case3 => exact Nat.le_refl _

theorem size_pass_le (s : Stream) (role : Role) (t : Token) (ts : List Token) :
    (s.pass role t ts).size ≤ ts.length :=
  size_skipTrivia_le ..

theorem size_pass_lt (s : Stream) (role : Role) {t : Token} {ts : List Token}
    (h : s.ahead = t :: ts) : (s.pass role t ts).size < s.size := by
  have := s.size_pass_le role t ts
  simp only [size, h, List.length_cons] at *
  omega

end Stream

/-- The outcome of reading a part of a program that may be empty. -/
structure Reach (α : Type) (s : Stream) where
  value : α
  next : Stream
  notLonger : next.size ≤ s.size

/-- The outcome of reading a part of a program that holds at least one token. -/
structure Read (α : Type) (s : Stream) where
  value : α
  next : Stream
  shorter : next.size < s.size

namespace Read

variable {α β : Type} {s : Stream}

/-- The same part with another value. -/
def map (f : α → β) (r : Read α s) : Read β s := ⟨f r.value, r.next, r.shorter⟩

/-- A part and the one behind it, with the value of the latter. -/
def followedBy (r : Read α s) (q : Read β r.next) : Read β s :=
  ⟨q.value, q.next, Nat.lt_trans q.shorter r.shorter⟩

/-- A part and one behind it that may be empty, with the value of the latter. -/
def trailedBy (r : Read α s) (q : Reach β r.next) : Read β s :=
  ⟨q.value, q.next, Nat.lt_of_le_of_lt q.notLonger r.shorter⟩

/-- Forgets that the part holds a token. -/
def reach (r : Read α s) : Reach α s :=
  ⟨r.value, r.next, Nat.le_of_lt r.shorter⟩

end Read

namespace Reach

variable {α β : Type} {s : Stream}

/-- An empty part. -/
def stay (value : α) : Reach α s := ⟨value, s, Nat.le_refl _⟩

/-- The same part with another value. -/
def map (f : α → β) (r : Reach α s) : Reach β s :=
  ⟨f r.value, r.next, r.notLonger⟩

/-- A part and one behind it that holds a token, with the
value of the latter. -/
def followedBy (r : Reach α s) (q : Read β r.next) : Read β s :=
  ⟨q.value, q.next, Nat.lt_of_lt_of_le q.shorter r.notLonger⟩

end Reach

/-- A parser of a part that holds at least one token. -/
abbrev Parser (α : Type) := (s : Stream) → Except SyntaxError (Read α s)

/-- A parser of a part that may be empty. -/
abbrev OptionalParser (α : Type) := (s : Stream) →
  Except SyntaxError (Reach α s)

namespace Parser

/-- Reads a token of one kind and gives it a role. -/
def accept? (kind : TokenKind) (role : Role) (s : Stream) :
    Option (Read Token s) :=
  match h : s.ahead with
  | t :: ts =>
    if t.kind = kind then some ⟨t, s.pass role t ts,
      s.size_pass_lt role h⟩ else none
  | [] => none

/-- Reads a token of one kind, which must come next. -/
def expect (kind : TokenKind) (role : Role) : Parser Token := fun s =>
  match accept? kind role s with
  | some r => .ok r
  | none => .error (s.unexpected kind.describe)

/-- Reads items until the next token has one of some kinds. -/
def itemsUntil (stop : TokenKind → Bool) (item : Parser α) :
    OptionalParser (List α) := fun s =>
  if stop s.kind then .ok (.stay [])
  else do
    let first ← item s
    let others ← itemsUntil stop item first.next
    .ok (first.trailedBy (others.map (first.value :: ·))).reach
termination_by s => s.size
decreasing_by exact first.shorter

/-- Reads one or more items with commas between them. -/
def separated (item : Parser α) : Parser (List α) := fun s => do
  let first ← item s
  match accept? .comma .semantic first.next with
  | none => .ok (first.map ([·]))
  | some comma =>
    let others ← separated item comma.next
    .ok (first.followedBy (comma.followedBy (others.map (first.value :: ·))))
termination_by s => s.size
decreasing_by exact Nat.lt_trans comma.shorter first.shorter

/-- Reads items between parentheses, with commas between them;
there may be none. -/
def parenthesized (item : Parser α) : Parser (List α) := fun s => do
  let opening ← expect .leftParen .semantic s
  if opening.next.kind = .rightParen then
    let closing ← expect .rightParen .semantic opening.next
    .ok (opening.followedBy (closing.map fun _ => []))
  else
    let items ← separated item opening.next
    let closing ← expect .rightParen .semantic items.next
    .ok (opening.followedBy (items.followedBy (closing.map fun _ =>
      items.value)))

end Parser

end Lossless
