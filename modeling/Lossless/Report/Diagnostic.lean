import Lossless.Report.Window
import Lossless.Text.Place

/-!
# Diagnostics

A diagnostic is a message about a range of a text. `Diagnostic.render` shows it
in a plain layout, without colours: with the line on which the range starts and
with carets below the range, at least one, cut where the line ends. A line that
is too long is shown through a window, and the carets move with it.

The layout is that of an outside renderer, followed for ranges that start and
end between characters of one line. Each character that is no control counts
one column, as in texts without wide or combining characters and tabs. No
command depends on the layout: a transcript holds diagnostics as they are.
-/

namespace Lossless

/-- A message about a range of a text. -/
structure Diagnostic where
  message : String
  range : Text.Range
  /-- What stands behind the carets. -/
  label : String := "here"
  deriving DecidableEq, Repr

namespace Diagnostic

/-- The columns of a screen. -/
def screenWidth : Nat := 140

/-- The line that carries the message. -/
def title (message : String) : String :=
  if message.isEmpty then "error" else "error: " ++ message

/-- The row that says where the range starts. -/
def originRow (margin : List Char) (path : String)
    (line column : Nat) : String :=
  String.ofList (Text.rowWrite (margin ++ "-->".toList)
    (margin.length + 4) path.toList) ++
    ":" ++ toString line ++ ":" ++ toString column

/-- The row below a line of which the first `hidden` columns are not
shown. What belongs below a hidden column stands further left, at the
front of the row at least. -/
def markRow (margin : List Char) (hidden start stop : Nat)
    (label : String) : String :=
  let code := margin.length + 3
  let row := Text.rowWrite (margin ++ " |".toList)
    (code + (stop + 1 - hidden)) label.toList
  let first := code + start - hidden
  let last := code + (stop - 1) - hidden
  String.ofList
    (Text.rowWrite row first (List.replicate (last - first + 1) '^'))

/-- A diagnostic as lines of text. The outside renderer has no layout for a
range that starts or ends inside a character; here the character counts as
standing in front of that place. -/
def render (d : Diagnostic) (path text : String) : String :=
  let offset := min d.range.start text.utf8ByteSize
  let place := Text.placeAt text offset
  let bytes := place.column + (min d.range.stop text.utf8ByteSize - offset)
  let lines := Text.lines
    (Text.takeBytesAndLine bytes (Text.dropLines place.line text.toList))
  let line := lines.headD []
  let before := Text.takeBytes place.column line
  let start := Text.width before
  let stop := max (start + 1) (Text.width (Text.takeBytes bytes line))
  let number := toString (place.line + 1)
  let margin := List.replicate number.length ' '
  let room :=
    screenWidth - ((toString (place.line + 1 + lines.length)).length + 3)
  let window := Window.ofExcerpt room
    { indent := Excerpt.indentOf lines
      longest := (lines.map List.length).foldl max 0
      start := start
      stop := stop
      label := stop + d.label.utf8ByteSize + 1 }
  "\n".intercalate
    [title d.message,
      originRow margin path (place.line + 1) (before.length + 1),
      String.ofList margin ++ " |",
      number ++ " | " ++ String.ofList (window.view line),
      markRow margin (window.first line.length) start stop d.label,
      String.ofList margin ++ " |"]

end Diagnostic

end Lossless
