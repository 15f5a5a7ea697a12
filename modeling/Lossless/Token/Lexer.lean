import Lossless.Text.Alphabetic
import Lossless.Text.Blank
import Lossless.Text.Numeric
import Lossless.Token.Basic

/-!
# Splitting a text into tokens

A `Lexeme` is the kind of the token at the front of a text, the characters of it
behind the first one, and the text that follows. Nothing is dropped: the
characters and the rest make up what was read (`lexeme_append`), so the tokens
of a text tile it. Comments, blanks and line terminators are tokens like any
other. What fits no class is a token of one character and of unknown kind; a
comment or a string that never ends is one long unknown token.
-/

namespace Lossless

namespace Lexer

open Text

/-- The token at the front of a text, without its first character, and
what follows it. -/
structure Lexeme where
  kind : TokenKind
  body : List Char
  rest : List Char

/-- Characters that begin an identifier. -/
def startsWord (c : Char) : Bool :=
  c == '$' || c == '_' || isAlphabetic c

/-- Characters that an identifier goes on with. -/
def continuesWord (c : Char) : Bool :=
  startsWord c || isNumeric c || c == '\u200c' || c == '\u200d'

/-- Digits in base sixteen. -/
def isHexDigit (c : Char) : Bool :=
  c.isDigit || ('a' ≤ c && c ≤ 'f') || ('A' ≤ c && c ≤ 'F')

/-- The longest front of a text with a property, and what follows. -/
def run (p : Char → Bool) (cs : List Char) : List Char × List Char :=
  (cs.takeWhile p, cs.dropWhile p)

/-- The rest of a block comment through its end, if it has one,
and what follows. -/
def commentBody : List Char → Option (List Char × List Char)
  | [] => none
  | '*' :: '/' :: cs => some (['*', '/'], cs)
  | c :: cs => (commentBody cs).map fun r => (c :: r.1, r.2)

/-- The rest of a string: whether it is closed, its characters, and what
follows. A backslash takes the next character along, and both characters of a
carriage return with a line feed. -/
def stringBody (delimiter : Char) : List Char → Bool × List Char × List Char
  | [] => (false, [], [])
  | ['\\'] => (false, ['\\'], [])
  | '\\' :: '\r' :: '\n' :: cs =>
    let r := stringBody delimiter cs
    (r.1, '\\' :: '\r' :: '\n' :: r.2.1, r.2.2)
  | '\\' :: c :: cs =>
    let r := stringBody delimiter cs
    (r.1, '\\' :: c :: r.2.1, r.2.2)
  | c :: cs =>
    if isLineTerminator c then (false, [], c :: cs)
    else if c == delimiter then (true, [c], cs)
    else
      let r := stringBody delimiter cs
      (r.1, c :: r.2.1, r.2.2)

/-- A sign, if one comes next. -/
def sign : List Char → List Char × List Char
  | c :: cs => if c == '-' || c == '+' then ([c], cs) else ([], c :: cs)
  | [] => ([], [])

/-- The power of ten at the end of a number, with any number of digits, if a
letter opens it. -/
def exponent : List Char → List Char × List Char
  | c :: cs =>
    if c == 'e' || c == 'E' then
      let s := sign cs
      let digits := run Char.isDigit s.2
      (c :: s.1 ++ digits.1, digits.2)
    else ([], c :: cs)
  | [] => ([], [])

/-- The point of a number with the digits behind it, if there is one. -/
def fraction : List Char → List Char × List Char
  | '.' :: cs =>
    let digits := run Char.isDigit cs
    ('.' :: digits.1, digits.2)
  | cs => ([], cs)

/-- A number whose first digit is not the zero of a prefix. -/
def decimalBody (cs : List Char) : List Char × List Char :=
  let whole := run Char.isDigit cs
  let point := fraction whole.2
  let power := exponent point.2
  (whole.1 ++ point.1 ++ power.1, power.2)

/-- The rest of a number behind its first digit. -/
def numberBody (first : Char) (cs : List Char) : List Char × List Char :=
  match cs with
  | x :: ds =>
    if first == '0' && (x == 'x' || x == 'X') then
      let digits := run isHexDigit ds
      (x :: digits.1, digits.2)
    else decimalBody cs
  | [] => ([], [])

/-- What a slash opens: a comment to the end of the line, a comment with an end
of its own, or nothing. -/
def slash : List Char → Lexeme
  | '/' :: cs =>
    let r := run (!isLineTerminator ·) cs
    ⟨.lineComment, '/' :: r.1, r.2⟩
  | '*' :: cs =>
    match commentBody cs with
    | some (body, rest) => ⟨.blockComment, '*' :: body, rest⟩
    | none => ⟨.unknown, '*' :: cs, []⟩
  | cs => ⟨.unknown, [], cs⟩

/-- What a point opens: the fraction of a number, if a digit follows. -/
def point (cs : List Char) : Lexeme :=
  if cs.head?.any Char.isDigit then
    let digits := run Char.isDigit cs
    let power := exponent digits.2
    ⟨.number, digits.1 ++ power.1, power.2⟩
  else ⟨.unknown, [], cs⟩

/-- A carriage return takes the line feed behind it along. -/
def carriageReturn : List Char → Lexeme
  | '\n' :: cs => ⟨.lineTerminator, ['\n'], cs⟩
  | cs => ⟨.lineTerminator, [], cs⟩

/-- The token that a text with first character `c` begins with. -/
def lexeme (c : Char) (cs : List Char) : Lexeme :=
  if c == '(' then ⟨.leftParen, [], cs⟩
  else if c == ')' then ⟨.rightParen, [], cs⟩
  else if c == '\x7b' then ⟨.leftBrace, [], cs⟩
  else if c == '\x7d' then ⟨.rightBrace, [], cs⟩
  else if c == ',' then ⟨.comma, [], cs⟩
  else if c == ';' then ⟨.semicolon, [], cs⟩
  else if c == '\r' then carriageReturn cs
  else if isLineTerminator c then ⟨.lineTerminator, [], cs⟩
  else if c == '/' then slash cs
  else if c == '"' || c == '\'' then
    let r := stringBody c cs
    ⟨if r.1 then .string else .unknown, r.2.1, r.2.2⟩
  else if c.isDigit then
    let r := numberBody c cs
    ⟨.number, r.1, r.2⟩
  else if c == '.' then point cs
  else if isBlank c then
    let r := run isBlank cs
    ⟨.blank, r.1, r.2⟩
  else if startsWord c then
    let r := run continuesWord cs
    ⟨TokenKind.ofWord (String.ofList (c :: r.1)), r.1, r.2⟩
  else ⟨.unknown, [], cs⟩

/-! ### Nothing is dropped -/

theorem run_append (p : Char → Bool) (cs : List Char) :
    (run p cs).1 ++ (run p cs).2 = cs :=
  List.takeWhile_append_dropWhile

theorem commentBody_append {cs : List Char} {r : List Char × List Char}
    (h : commentBody cs = some r) : r.1 ++ r.2 = cs := by
  fun_induction commentBody cs generalizing r with
  | case1 => simp at h
  | case2 cs => simp [← Option.some.inj h]
  | case3 c cs _ ih =>
    obtain ⟨s, hs, rfl⟩ := Option.map_eq_some_iff.1 h
    simp [ih hs]

theorem stringBody_append (q : Char) (cs : List Char) :
    (stringBody q cs).2.1 ++ (stringBody q cs).2.2 = cs := by
  fun_induction stringBody q cs <;> simp_all +zetaDelta

theorem sign_append (cs : List Char) : (sign cs).1 ++ (sign cs).2 = cs := by
  fun_cases sign cs <;> rfl

theorem exponent_append (cs : List Char) :
    (exponent cs).1 ++ (exponent cs).2 = cs := by
  fun_cases exponent cs with
  | case1 c cs => simp +zetaDelta [run_append, sign_append]
  | case2 => rfl
  | case3 => rfl

theorem fraction_append (cs : List Char) :
    (fraction cs).1 ++ (fraction cs).2 = cs := by
  fun_cases fraction cs with
  | case1 cs => simp +zetaDelta [run_append]
  | case2 => rfl

theorem decimalBody_append (cs : List Char) :
    (decimalBody cs).1 ++ (decimalBody cs).2 = cs := by
  simp only [decimalBody, List.append_assoc, exponent_append,
    fraction_append, run_append]

theorem numberBody_append (c : Char) (cs : List Char) :
    (numberBody c cs).1 ++ (numberBody c cs).2 = cs := by
  fun_cases numberBody c cs with
  | case1 x ds _ => simp +zetaDelta [run_append]
  | case2 x ds _ => exact decimalBody_append _
  | case3 => rfl

theorem slash_append (cs : List Char) :
    (slash cs).body ++ (slash cs).rest = cs := by
  fun_cases slash cs with
  | case1 cs => simp +zetaDelta [run_append]
  | case2 cs body rest h => simp [← commentBody_append h]
  | case3 cs h => simp
  | case4 cs => rfl

theorem point_append (cs : List Char) :
    (point cs).body ++ (point cs).rest = cs := by
  fun_cases point cs with
  | case1 => simp +zetaDelta [run_append, exponent_append]
  | case2 => rfl

theorem carriageReturn_append (cs : List Char) :
    (carriageReturn cs).body ++ (carriageReturn cs).rest = cs := by
  fun_cases carriageReturn cs <;> rfl

/-- The characters of a token and what follows it are what the
token was read from. -/
theorem lexeme_append (c : Char) (cs : List Char) :
    (lexeme c cs).body ++ (lexeme c cs).rest = cs := by
  fun_cases lexeme c cs
  case case7 => exact carriageReturn_append cs
  case case9 => exact slash_append cs
  case case10 => exact stringBody_append c cs
  case case11 => exact numberBody_append c cs
  case case12 => exact point_append cs
  case case13 => exact run_append _ cs
  case case14 => exact run_append _ cs
  all_goals rfl

theorem length_rest_le (c : Char) (cs : List Char) :
    (lexeme c cs).rest.length ≤ cs.length := by
  have h := congrArg List.length (lexeme_append c cs)
  simp only [List.length_append] at h
  omega

end Lexer

/-- A position in a text that is being split: the mark reached, and the
text from there on. -/
structure Cursor where
  mark : Text.Mark
  rest : List Char

namespace Cursor

/-- The front of a text. -/
def ofText (text : String) : Cursor := ⟨.start, text.toList⟩

/-- The token at a position and the position behind it. At the end of the text
it is an empty token of the kind that says so, however often it is asked for. -/
def next (s : Cursor) : Token × Cursor :=
  match s.rest with
  | [] => (⟨.endOfFile, "", s.mark.span s.mark⟩, s)
  | c :: cs =>
    let l := Lexer.lexeme c cs
    let mark := s.mark.past (c :: l.body)
    (⟨l.kind, String.ofList (c :: l.body), s.mark.span mark⟩, ⟨mark, l.rest⟩)

theorem length_next_lt {s : Cursor} (h : s.rest ≠ []) :
    s.next.2.rest.length < s.rest.length := by
  obtain ⟨m, cs⟩ := s
  cases cs with
  | nil => exact absurd rfl h
  | cons c cs => exact Nat.lt_succ_of_le (Lexer.length_rest_le c cs)

/-- The tokens from a position to the end of the text, behind those already
collected, latest first. -/
def collect (found : List Token) (s : Cursor) : List Token :=
  if s.rest = [] then found.reverse else collect (s.next.1 :: found) s.next.2
termination_by s.rest.length
decreasing_by exact length_next_lt ‹_›

/-- The tokens from a position to the end of the text. -/
def tokens (s : Cursor) : List Token := s.collect []

/-- The next tokens, as many as asked for, past the end if need be. -/
def take : Nat → Cursor → List Token
  | 0, _ => []
  | n + 1, s => s.next.1 :: take n s.next.2

theorem collect_of_end {s : Cursor} (h : s.rest = []) (found : List Token) :
    s.collect found = found.reverse := by
  rw [collect, if_pos h]

theorem collect_of_not_end {s : Cursor} (h : s.rest ≠ []) (found : List Token) :
    s.collect found = s.next.2.collect (s.next.1 :: found) := by
  rw [collect, if_neg h]

theorem collect_eq (found : List Token) (s : Cursor) :
    s.collect found = found.reverse ++ s.tokens := by
  by_cases h : s.rest = []
  · simp [tokens, collect_of_end h]
  · rw [tokens, collect_of_not_end h, collect_of_not_end h,
      collect_eq (s.next.1 :: found), collect_eq [s.next.1]]
    simp
termination_by s.rest.length
decreasing_by all_goals exact length_next_lt h

theorem tokens_of_end {s : Cursor} (h : s.rest = []) : s.tokens = [] :=
  collect_of_end h []

/-- The tokens of a text that is not empty are its first token and the tokens
of what follows. -/
theorem tokens_of_not_end {s : Cursor} (h : s.rest ≠ []) :
    s.tokens = s.next.1 :: s.next.2.tokens := by
  rw [tokens, collect_of_not_end h, collect_eq]
  rfl

end Cursor

/-- The tokens of a text. -/
def tokenize (text : String) : List Token := (Cursor.ofText text).tokens

end Lossless
