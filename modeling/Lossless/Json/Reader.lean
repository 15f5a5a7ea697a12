/-!
# Reading JSON text

Readers for the parts of a JSON text, made to be combined by those who know
which value they expect. Members that nobody asks for are passed over with
`skip`, which checks their form only; a string that is passed over may hold half
of a surrogate pair, a string that is read may not. Every reader answers `none`
where the text is no JSON, and the text that is left otherwise.
-/

namespace Lossless.Json

/-- A reader of some part at the front of a text. -/
abbrev Reader (α : Type) := StateT (List Char) Option α

namespace Reader

/-- The text without the blanks at its front. -/
def dropBlanks (cs : List Char) : List Char :=
  cs.dropWhile fun c => c == ' ' || c == '\n' || c == '\t' || c == '\r'

/-- The next character that is no blank, left where it is. -/
def peek? : Reader (Option Char) := fun cs =>
  let cs := dropBlanks cs
  some (cs.head?, cs)

/-- The next character, whatever it is. -/
def char : Reader Char
  | [] => none
  | c :: cs => some (c, cs)

/-- Passes one given character after any blanks. -/
def mark (c : Char) : Reader Unit := fun cs =>
  match dropBlanks cs with
  | d :: ds => if d == c then some ((), ds) else none
  | [] => none

/-- Passes one given character if it is next. -/
def mark? (c : Char) : Reader Bool := do
  if (← peek?) == some c then mark c; return true else return false

/-- Passes a word. -/
def word (w : String) : Reader Unit := fun cs =>
  let cs := dropBlanks cs
  if w.toList.isPrefixOf cs then some ((), cs.drop w.length) else none

/-- The value of a hexadecimal digit. -/
def hexDigit? (c : Char) : Option Nat :=
  if c.isDigit then some (c.toNat - '0'.toNat)
  else if 'a' ≤ c ∧ c ≤ 'f' then some (c.toNat - 'a'.toNat + 10)
  else if 'A' ≤ c ∧ c ≤ 'F' then some (c.toNat - 'A'.toNat + 10)
  else none

/-- Four hexadecimal digits. -/
def unit : Reader Nat := do
  let a ← hexDigit? (← char)
  let b ← hexDigit? (← char)
  let c ← hexDigit? (← char)
  let d ← hexDigit? (← char)
  return ((a * 16 + b) * 16 + c) * 16 + d

/-- What follows a backslash with a single letter. -/
def simpleEscape? (c : Char) : Option Char :=
  match c with
  | '"' => some '"'
  | '\\' => some '\\'
  | '/' => some '/'
  | 'b' => some '\x08'
  | 'f' => some '\x0c'
  | 'n' => some '\n'
  | 'r' => some '\r'
  | 't' => some '\t'
  | _ => none

/-- The character of an escape by code, with the low half of a surrogate pair
behind a high one. -/
def codeEscape : Reader Char := do
  let high ← unit
  if 0xD800 ≤ high ∧ high ≤ 0xDBFF then
    guard ((← char) == '\\')
    guard ((← char) == 'u')
    let low ← unit
    guard (0xDC00 ≤ low ∧ low ≤ 0xDFFF)
    return Char.ofNat (0x10000 + (high - 0xD800) * 0x400 + (low - 0xDC00))
  else
    guard ¬(0xDC00 ≤ high ∧ high ≤ 0xDFFF)
    return Char.ofNat high

/-- The rest of a string up to its closing quote; `escape` reads what
follows a backslash. Every round takes a character, so the length of the
text bounds them. -/
def stringRest (escape : Reader (List Char)) : Nat → Reader (List Char)
  | 0 => failure
  | fuel + 1 => do
    let c ← char
    if c == '"' then return []
    else if c == '\\' then return (← escape) ++ (← stringRest escape fuel)
    else
      guard (32 ≤ c.toNat)
      return c :: (← stringRest escape fuel)

/-- The length of the text that is left. -/
def remaining : Reader Nat := fun cs => some (cs.length, cs)

/-- A string, decoded. -/
def string : Reader String := do
  mark '"'
  let escape : Reader (List Char) := do
    let c ← char
    if c == 'u' then return [← codeEscape] else return [← simpleEscape? c]
  return String.ofList (← stringRest escape (← remaining))

/-- Passes over a string; an escape by code may be any. -/
def skipString : Reader Unit := do
  mark '"'
  let escape : Reader (List Char) := do
    let c ← char
    if c == 'u' then discard unit else discard (simpleEscape? c : Reader Char)
    return []
  discard (stringRest escape (← remaining))

/-- Passes over a run of digits that must not be empty. -/
def skipDigits : Reader Unit := fun cs =>
  match cs with
  | c :: cs => if c.isDigit then some ((), cs.dropWhile Char.isDigit) else none
  | [] => none

/-- Passes one of some characters if it comes next, blanks included. -/
def oneOf? (wanted : List Char) : Reader Bool := fun cs =>
  match cs with
  | c :: ds => if wanted.contains c then some (true, ds) else some (false, cs)
  | [] => some (false, [])

/-- Passes over a number: no zero stands in front of another digit. -/
def skipNumber : Reader Unit := do
  discard peek?
  discard (oneOf? ['-'])
  if ← oneOf? ['0'] then
    fun cs => if cs.head?.any Char.isDigit then none else some ((), cs)
  else skipDigits
  if ← oneOf? ['.'] then skipDigits
  if ← oneOf? ['e', 'E'] then
    discard (oneOf? ['+', '-'])
    skipDigits

/-- The items up to a closing mark, with commas between them; the opening mark
has been passed. -/
def itemsRest (close : Char) (item : Reader α) : Nat → Reader (List α)
  | 0 => failure
  | fuel + 1 => do
    let first ← item
    if ← mark? ',' then return first :: (← itemsRest close item fuel)
    else
      mark close
      return [first]

/-- Items between two marks, with commas between them. -/
def items (opening close : Char) (item : Reader α) : Reader (List α) := do
  mark opening
  if ← mark? close then return []
  else itemsRest close item (← remaining)

/-- The items of an array. -/
def array (item : Reader α) : Reader (List α) := items '[' ']' item

/-- The members of an object; the reader of a value may depend on its key. -/
def object (key : Reader κ) (value : κ → Reader α) : Reader (List (κ × α)) :=
  items '\x7b' '\x7d' do
    let k ← key
    mark ':'
    return (k, ← value k)

/-- Passes over a value that nests no deeper than `fuel`. -/
def skipWithin : Nat → Reader Unit
  | 0 => failure
  | fuel + 1 => do
    match ← peek? with
    | some '[' => discard (array (skipWithin fuel))
    | some '\x7b' => discard (object skipString fun _ => skipWithin fuel)
    | some '"' => skipString
    | some 'n' => word "null"
    | some 't' => word "true"
    | some 'f' => word "false"
    | _ => skipNumber

/-- Passes over a value of any form. A value nests less deep than
its text is long. -/
def skip : Reader Unit := do skipWithin ((← remaining) + 1)

/-- Reads a whole text: only blanks may follow. -/
def run? (reader : Reader α) (text : String) : Option α :=
  match reader text.toList with
  | some (value, rest) => if (dropBlanks rest).isEmpty then some value else none
  | none => none

end Reader

end Lossless.Json
