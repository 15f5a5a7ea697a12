import Lossless.Number.Shortest
import Lossless.Text.Quoted

/-!
# JSON values

A JSON value as it is written: the members of an object stand in order, and a
key may stand twice. A number is an integer or a binary64 number; the two are
written differently, so they are kept apart. `compact` writes a value without
any blank, `pretty` one member or item to a line.
-/

namespace Lossless

/-- A number of a JSON text. -/
inductive Json.Number where
  | integer (value : Int)
  | real (value : Binary64)
  deriving DecidableEq

/-- A JSON value. -/
inductive Json where
  | null
  | bool (value : Bool)
  | number (value : Json.Number)
  | string (value : String)
  | array (items : List Json)
  | object (members : List (String × Json))

namespace Json

instance : Inhabited Json := ⟨.null⟩

/-- An array of texts. -/
def strings (texts : List String) : Json := .array (texts.map .string)

/-- Real numbers are positional from five places behind the point to sixteen
before it, always with a point; beyond that they have a signed exponent. -/
def numberFormat : NumberFormat := ⟨-5, 15, true, "+"⟩

namespace Number

/-- The numeral of a number. What no numeral denotes is written as null. -/
def write : Number → String
  | .integer i => toString i
  | .real (.finite negative m e _) =>
    (if negative then "-" else "") ++
      if m = 0 then "0.0" else numberFormat.write (Binary64.shortest m e)
  | .real _ => "null"

/-- The binary64 number nearest to a number. -/
def toBinary64 : Number → Binary64
  | .integer i => .ofInt i
  | .real x => x

end Number

/-- A character as it stands inside a JSON string: the quote, the backslash and
the controls are escaped. -/
def escapeChar (c : Char) : String :=
  if c == '"' then "\\\""
  else if c == '\\' then "\\\\"
  else if c == '\x08' then "\\b"
  else if c == '\t' then "\\t"
  else if c == '\n' then "\\n"
  else if c == '\x0c' then "\\f"
  else if c == '\r' then "\\r"
  else if c.toNat < 32 then
    "\\u00" ++ (if c.toNat < 16 then "0" else "") ++ Text.hex c.toNat
  else String.singleton c

/-- A text as a JSON string. -/
def writeString (s : String) : String :=
  "\"" ++ String.join (s.toList.map escapeChar) ++ "\""

mutual

/-- A value without any blank. -/
def compact : Json → String
  | .null => "null"
  | .bool b => if b then "true" else "false"
  | .number n => n.write
  | .string s => writeString s
  | .array items => "[" ++ compactItems items ++ "]"
  | .object members => "\x7b" ++ compactMembers members ++ "\x7d"

/-- The items of an array with commas between them. -/
def compactItems : List Json → String
  | [] => ""
  | [item] => item.compact
  | item :: items => item.compact ++ "," ++ compactItems items

/-- The members of an object with commas between them. -/
def compactMembers : List (String × Json) → String
  | [] => ""
  | [(key, value)] => writeString key ++ ":" ++ value.compact
  | (key, value) :: members =>
    writeString key ++ ":" ++ value.compact ++ "," ++ compactMembers members

end

/-- The start of a line at a depth: two spaces for each level. -/
def indent (depth : Nat) : String :=
  String.ofList (List.replicate (2 * depth) ' ')

mutual

/-- A value with each item and member on a line of its own,
indented by its depth. -/
def prettyAt (depth : Nat) : Json → String
  | .null => "null"
  | .bool b => if b then "true" else "false"
  | .number n => n.write
  | .string s => writeString s
  | .array [] => "[]"
  | .array items =>
    "[\n" ++ prettyItems (depth + 1) items ++ "\n" ++ indent depth ++ "]"
  | .object [] => "\x7b\x7d"
  | .object members =>
    "\x7b\n" ++ prettyMembers (depth + 1) members ++ "\n" ++
      indent depth ++ "\x7d"

/-- The items of an array, a line for each. -/
def prettyItems (depth : Nat) : List Json → String
  | [] => ""
  | [item] => indent depth ++ item.prettyAt depth
  | item :: items =>
    indent depth ++ item.prettyAt depth ++ ",\n" ++ prettyItems depth items

/-- The members of an object, a line for each. -/
def prettyMembers (depth : Nat) : List (String × Json) → String
  | [] => ""
  | [(key, value)] =>
    indent depth ++ writeString key ++ ": " ++ value.prettyAt depth
  | (key, value) :: members =>
    indent depth ++ writeString key ++ ": " ++ value.prettyAt depth ++ ",\n" ++
      prettyMembers depth members

end

/-- A value over several lines, two spaces to a level. -/
def pretty (value : Json) : String := value.prettyAt 0

end Json

end Lossless
