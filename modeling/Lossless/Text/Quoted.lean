import Lossless.Text.Extending
import Lossless.Text.Unprintable

/-!
# Quoted texts

`quote s` shows a text between double quotes on one line: the quote and the
backslash carry a backslash, four controls have a letter, and every character
that would not be seen on its own is shown by its code point in hexadecimal,
between braces and without padding.
-/

namespace Lossless.Text

/-- The digits of a number in base sixteen, lower case. -/
def hex (n : Nat) : String :=
  String.ofList (Nat.toDigits 16 n)

/-- A character as it stands inside a quoted text. -/
def quoteChar (c : Char) : String :=
  if c == '"' then "\\\""
  else if c == '\\' then "\\\\"
  else if c == '\x00' then "\\0"
  else if c == '\t' then "\\t"
  else if c == '\r' then "\\r"
  else if c == '\n' then "\\n"
  else if isExtending c || isUnprintable c then
    "\\u\x7b" ++ hex c.toNat ++ "\x7d"
  else String.singleton c

/-- A text between double quotes, safe to print on one line. -/
def quote (s : String) : String :=
  "\"" ++ String.join (s.toList.map quoteChar) ++ "\""

/-- A list of texts, each quoted, between brackets. -/
def quoteList (texts : List String) : String :=
  "[" ++ ", ".intercalate (texts.map quote) ++ "]"

/-- A text between backquotes, as messages name a piece of the source. -/
def backquote (s : String) : String :=
  "`" ++ s ++ "`"

end Lossless.Text
