/-!
# Lines of a text

A line ends at a line feed, or at a carriage return with a line feed behind
it; the end is no part of the line. `rowWrite` writes over a row of characters
as on a screen: what stood there is replaced, and a gap up to the place is
filled with spaces.
-/

namespace Lossless.Text

/-- The lines of a text, without their ends. -/
def lines : List Char → List (List Char)
  | [] => []
  | '\n' :: cs => [] :: lines cs
  | '\r' :: '\n' :: cs => [] :: lines cs
  | c :: cs =>
    match lines cs with
    | [] => [[c]]
    | line :: others => (c :: line) :: others

/-- What follows the first few line feeds. -/
def dropLines : Nat → List Char → List Char
  | 0, cs => cs
  | n + 1, cs => dropLines n ((cs.dropWhile (· ≠ '\n')).drop 1)

/-- The characters that start within the first bytes. -/
def takeBytes (bytes : Nat) : List Char → List Char
  | [] => []
  | c :: cs => if bytes = 0 then [] else c :: takeBytes (bytes - c.utf8Size) cs

/-- The characters that start within the first bytes, and those behind them up
to a line feed. -/
def takeBytesAndLine (bytes : Nat) (cs : List Char) : List Char :=
  let front := takeBytes bytes cs
  front ++ (cs.drop front.length).takeWhile (· ≠ '\n')

/-- The columns that characters fill on a screen, if none of them is wide or
combines with another one. Controls fill none. -/
def width (cs : List Char) : Nat := cs.countP fun c => 32 ≤ c.toNat &&
  c.toNat ≠ 127

/-- Writes characters over a row, from a column on. -/
def rowWrite (row : List Char) (column : Nat) (cs : List Char) : List Char :=
  if cs.isEmpty then row
  else row.take column ++ List.replicate (column - row.length) ' ' ++ cs ++
    row.drop (column + cs.length)

end Lossless.Text
