import Lossless.Ast.Basic
import Lossless.Number.Decimal
import Lossless.Outcome
import Lossless.Text.Quoted
import Lossless.Token.Lexer

/-!
# The values of literals

What a literal token means: a word its value, a numeral a binary64 number, a
string the characters it spells. A numeral is hexadecimal behind `0x`, and
otherwise decimal; a zero in front of another digit is refused, and so is
what binary64 cannot hold. A hexadecimal numeral is worked out digit by
digit, each step rounded.
-/

namespace Lossless

/-- Why a token is no literal; each carries the spelling. -/
inductive LiteralError where
  | notALiteral (raw : String)
  | outOfRange (raw : String)
  | invalidNumber (raw : String)
  | legacyOctal (raw : String)
  | unpairedSurrogate (raw : String)
  | octalEscape (raw : String)
  | malformedEscape (raw : String)
  deriving DecidableEq, Repr

/-- The wording of a failure. -/
def LiteralError.message : LiteralError → String
  | notALiteral raw => Text.backquote raw ++ " is not a literal"
  | outOfRange raw =>
    "numeric literal " ++ Text.backquote raw ++ " is out of range"
  | invalidNumber raw => "invalid numeric literal " ++ Text.backquote raw
  | legacyOctal raw =>
    "legacy octal literal " ++ Text.backquote raw ++ " is not supported"
  | unpairedSurrogate raw => "unpaired surrogate in " ++ Text.backquote raw
  | octalEscape raw =>
    "octal escape in " ++ Text.backquote raw ++ " is not supported"
  | malformedEscape raw =>
    "malformed hexadecimal escape in " ++ Text.backquote raw

namespace Literal

/-! ### Numbers -/

/-- The value of a digit in base sixteen. -/
def hexValue (c : Char) : Nat :=
  if c.isDigit then c.toNat - '0'.toNat
  else if 'a' ≤ c ∧ c ≤ 'f' then c.toNat - 'a'.toNat + 10
  else c.toNat - 'A'.toNat + 10

/-- The number that hexadecimal digits denote, rounded after each of them. -/
def ofHexDigits (digits : List Char) : Binary64 :=
  (digits.filter Lexer.isHexDigit).foldl (fun x c => x.appendHex (hexValue c))
    (.zero false)

/-- The number that a spelling denotes, which may be infinite. -/
def numberValue (raw : String) : Except LiteralError Binary64 :=
  match raw.toList with
  | '0' :: 'x' :: digits | '0' :: 'X' :: digits =>
    if digits.isEmpty then .error (.invalidNumber raw)
    else .ok (ofHexDigits digits)
  | cs =>
    match cs with
    | '0' :: c :: _ =>
      if c.isDigit then .error (.legacyOctal raw) else decimal cs
    | _ => decimal cs
where
  /-- A decimal spelling. -/
  decimal (cs : List Char) : Except LiteralError Binary64 :=
    match Decimal.read? cs with
    | some d => .ok (d.toBinary64 false)
    | none => .error (.invalidNumber raw)

/-- The finite number that a spelling denotes. -/
def number (raw : String) : Except LiteralError Binary64 := do
  let x ← numberValue raw
  if x.isFinite then .ok x else .error (.outOfRange raw)

/-! ### Strings -/

/-- What is wrong with an escape in a string. -/
inductive EscapeFault where
  | malformed
  | unpaired
  | octal
  deriving DecidableEq, Repr

/-- A number of hexadecimal digits at the front of a text, what they denote,
and what follows. -/
def hexCode (high : Nat) :
    Nat → List Char → Except EscapeFault (Nat × List Char)
  | 0, cs => .ok (high, cs)
  | n + 1, c :: cs =>
    if Lexer.isHexDigit c then hexCode (high * 16 + hexValue c) n cs
    else .error .malformed
  | _ + 1, [] => .error .malformed

/-- The low half of a surrogate pair, spelled as an escape of its own. -/
def lowSurrogate : List Char → Except EscapeFault (Nat × List Char)
  | '\\' :: 'u' :: cs => do
    let (low, cs) ← hexCode 0 4 cs
    if 0xDC00 ≤ low ∧ low ≤ 0xDFFF then .ok (low, cs) else .error .unpaired
  | _ => .error .unpaired

/-- The character that four hexadecimal digits spell, or eight that form a
surrogate pair. -/
def unicodeEscape (cs : List Char) : Except EscapeFault (Char × List Char) := do
  let (high, cs) ← hexCode 0 4 cs
  if 0xD800 ≤ high ∧ high ≤ 0xDBFF then
    let (low, cs) ← lowSurrogate cs
    .ok (Char.ofNat (0x10000 + (high - 0xD800) * 0x400 + (low - 0xDC00)), cs)
  else if 0xDC00 ≤ high ∧ high ≤ 0xDFFF then .error .unpaired
  else .ok (Char.ofNat high, cs)

/-- The control character that a letter stands for behind a backslash. -/
def control? (c : Char) : Option Char :=
  match c with
  | 'n' => some '\n'
  | 't' => some '\t'
  | 'r' => some '\r'
  | 'b' => some '\x08'
  | 'f' => some '\x0c'
  | 'v' => some '\x0b'
  | _ => none

/-- A line feed is dropped where it follows a carriage return. -/
def dropLineFeed : List Char → List Char
  | '\n' :: cs => cs
  | cs => cs

/-- What a backslash with the character `c` behind it stands for, and what
follows. A line terminator stands for nothing; a character without a meaning of
its own stands for itself. -/
def escape (c : Char) (cs : List Char) :
    Except EscapeFault (List Char × List Char) :=
  match control? c with
  | some d => .ok ([d], cs)
  | none =>
    if c == '0' && !cs.head?.any Char.isDigit then .ok (['\x00'], cs)
    else if c == 'x' then (hexCode 0 2 cs).map fun r => ([Char.ofNat r.1], r.2)
    else if c == 'u' then (unicodeEscape cs).map fun r => ([r.1], r.2)
    else if c.isDigit then .error .octal
    else if c == '\r' then .ok ([], dropLineFeed cs)
    else if Text.isLineTerminator c then .ok ([], cs)
    else .ok ([c], cs)

theorem hexCode_length (high n : Nat) (cs : List Char) :
    ∀ r, hexCode high n cs = .ok r → r.2.length ≤ cs.length := by
  fun_induction hexCode high n cs with
  | case1 high cs =>
    rintro r h
    obtain rfl := Except.ok.inj h
    exact Nat.le_refl _
  | case2 high n c cs _ ih => exact fun r h => Nat.le_succ_of_le (ih r h)
  | case3 => exact fun r h => nomatch h
  | case4 => exact fun r h => nomatch h

theorem lowSurrogate_length (cs : List Char) :
    ∀ r, lowSurrogate cs = .ok r → r.2.length ≤ cs.length := by
  fun_cases lowSurrogate cs with
  | case1 cs =>
    intro r h
    obtain ⟨⟨low, rest⟩, hs, h⟩ := Outcome.bind_eq_ok.1 h
    dsimp only at h
    split at h
    · rw [← Except.ok.inj h]
      have := hexCode_length 0 4 cs _ hs
      simp only [List.length_cons] at *
      omega
    · exact nomatch h
  | case2 => exact fun r h => nomatch h

theorem unicodeEscape_length (cs : List Char) :
    ∀ r, unicodeEscape cs = .ok r → r.2.length ≤ cs.length := by
  intro r h
  obtain ⟨⟨high, rest⟩, hs, h⟩ := Outcome.bind_eq_ok.1 h
  have hlen := hexCode_length 0 4 cs _ hs
  dsimp only at h
  split at h
  · obtain ⟨⟨low, rest'⟩, ht, h⟩ := Outcome.bind_eq_ok.1 h
    rw [← Except.ok.inj h]
    exact Nat.le_trans (lowSurrogate_length _ _ ht) hlen
  · split at h
    · exact nomatch h
    · rw [← Except.ok.inj h]
      exact hlen

theorem dropLineFeed_length (cs : List Char) :
    (dropLineFeed cs).length ≤ cs.length := by
  fun_cases dropLineFeed cs <;> simp

theorem escape_length (c : Char) (cs : List Char) :
    ∀ r, escape c cs = .ok r → r.2.length ≤ cs.length := by
  fun_cases escape c cs with
  | case3 =>
    intro r h
    obtain ⟨s, hs, rfl⟩ := Outcome.map_eq_ok.1 h
    exact hexCode_length 0 2 cs s hs
  | case4 =>
    intro r h
    obtain ⟨s, hs, rfl⟩ := Outcome.map_eq_ok.1 h
    exact unicodeEscape_length cs s hs
  | case5 => exact fun r h => nomatch h
  | case6 =>
    intro r h
    rw [← Except.ok.inj h]
    exact dropLineFeed_length cs
  | case1 | case2 | case7 | case8 =>
    rintro r h
    obtain rfl := Except.ok.inj h
    exact Nat.le_refl _

/-- The characters that the inside of a string spells. -/
def decode : List Char → Except EscapeFault (List Char)
  | [] => .ok []
  | c :: cs =>
    if c == '\\' then
      match cs with
      | [] => .ok []
      | d :: cs =>
        match _h : escape d cs with
        | .error e => .error e
        | .ok (value, rest) => (decode rest).map (value ++ ·)
    else (decode cs).map (c :: ·)
termination_by cs => cs.length
decreasing_by
  · have := escape_length _ _ _ _h
    simp only [List.length_cons] at *
    omega
  · simp

/-- The failure of a string with a faulty escape. -/
def EscapeFault.toError (raw : String) : EscapeFault → LiteralError
  | malformed => .malformedEscape raw
  | unpaired => .unpairedSurrogate raw
  | octal => .octalEscape raw

/-- The text that a string literal spells: its characters without the
quotes around them. -/
def string (raw : String) : Except LiteralError String :=
  match decode (raw.toList.drop 1).dropLast with
  | .ok value => .ok (String.ofList value)
  | .error fault => .error (fault.toError raw)

/-- The value of a token of a kind with a spelling. -/
def value (kind : TokenKind) (raw : String) : Except LiteralError Scalar :=
  match kind with
  | .trueWord => .ok (.bool true)
  | .falseWord => .ok (.bool false)
  | .nullWord => .ok .null
  | .number => (number raw).map .number
  | .string => (string raw).map .string
  | _ => .error (.notALiteral raw)

end Literal

end Lossless
