import Lossless.Text.Blank
import Lossless.Text.Lines

/-!
# Windows on long lines

The lines of an excerpt are shown in a limited number of columns. A `Window`
says which columns these are: it leaves out most of a deep indentation, and
where the lines are still too long it stays with the marked columns and the
label behind them. Three dots stand over what is cut off on either side.
-/

namespace Lossless

/-- The measures of an excerpt, in columns. -/
structure Excerpt where
  /-- The least indentation of the lines that hold more than blanks,
  if there are any. -/
  indent : Option Nat
  /-- The length of the longest line. -/
  longest : Nat
  /-- The first marked column. -/
  start : Nat
  /-- The column behind the marked ones. -/
  stop : Nat
  /-- The column behind the label. -/
  label : Nat
  deriving DecidableEq, Repr

/-- The columns that are shown. -/
structure Window where
  /-- How many columns there is room for. -/
  width : Nat
  /-- The first column that is shown. -/
  start : Nat
  /-- Where a line that does not fit is cut. -/
  stop : Nat
  /-- A line up to here counts as shown to its end. -/
  reach : Nat
  deriving DecidableEq, Repr

namespace Excerpt

/-- The smallest indentation of lines that hold more than blanks. -/
def indentOf (lines : List (List Char)) : Option Nat :=
  let isSpace (c : Char) : Bool := Text.isBlank c || Text.isLineTerminator c
  ((lines.filter fun line => !line.all isSpace).map fun line =>
    (line.takeWhile isSpace).length).min?

/-- What stays free on each side of the marked columns, with room for dots. -/
def room : Nat := 6

/-- An indentation beyond this one is shortened. -/
def deepIndent : Nat := 20

/-- What stays of a shortened indentation. -/
def shortIndent : Nat := 4

end Excerpt

namespace Window

/-- The window that fills its width from a column on. -/
def fill (width start : Nat) : Window :=
  ⟨width, start, start + width, start + width⟩

/-- The window that an excerpt is shown through: without the deep part of its
indentation if that will do, else the first of these that has room: from the
indentation on, around the marked columns and the label, around the marked
columns. Blank lines are left out altogether. -/
def ofExcerpt (width : Nat) (e : Excerpt) : Window :=
  match e.indent with
  | none => ⟨width, e.longest + 1, e.longest + 1, e.longest + 1⟩
  | some indent =>
    let indent := indent - Excerpt.room
    let left := e.start - Excerpt.room
    let right := e.stop + Excerpt.room
    let label := e.label + Excerpt.room
    let start :=
      if Excerpt.deepIndent < indent
        then indent - (Excerpt.deepIndent - Excerpt.shortIndent) else 0
    let stop := max e.longest start
    if stop - start ≤ width then ⟨width, start, stop, stop⟩
    else if indent ≤ label ∧ label - indent ≤ width then fill width indent
    else if label - left ≤ width then
      fill width (left - (width - (label - left)) / 2)
    else if right - left ≤ width then
      fill width (left - (width - (right - left)) / 5 * 2)
    else ⟨width, left, right, e.stop⟩

/-- The first column that is shown of a line. -/
def first (w : Window) (length : Nat) : Nat := min w.start length

/-- The column behind the last one that is shown of a line. -/
def last (w : Window) (length : Nat) : Nat :=
  if length - w.start ≤ w.width then length else min length w.stop

/-- Whether a line goes on behind what is shown of it. -/
def cutsEnd (w : Window) (length : Nat) : Bool :=
  w.reach < length && w.start + w.width < length

/-- What is shown of a line. -/
def view (w : Window) (line : List Char) : List Char :=
  let dots := "...".toList
  let first := w.first line.length
  let shown := (line.drop first).take (w.last line.length - first)
  let front := if 0 < w.start then Text.rowWrite shown 0 dots else shown
  if w.cutsEnd line.length
    then Text.rowWrite front (shown.length - dots.length) dots else front

end Window

end Lossless
