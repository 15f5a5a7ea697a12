/-!
# Places in a text

Offsets count UTF-8 bytes. A place is a line and a column, both from zero;
columns count bytes too, and only a line feed starts a new line. A `Mark` is a
place together with its offset; the mark behind a piece of text is reached by
stepping over its characters (`Mark.past`), so the places of consecutive pieces
fit together (`Mark.past_append`).
-/

namespace Lossless.Text

/-- The bytes from `start` up to `stop`. -/
structure Range where
  start : Nat
  stop : Nat
  deriving DecidableEq, Repr, Inhabited

namespace Range

/-- The range of length zero at an offset. -/
def empty (offset : Nat) : Range := ⟨offset, offset⟩

def length (r : Range) : Nat := r.stop - r.start

/-- The offsets with two dots between them. -/
def describe (r : Range) : String := toString r.start ++ ".." ++ toString r.stop

end Range

/-- A line and a column, both counted from zero. -/
structure Place where
  line : Nat
  column : Nat
  deriving DecidableEq, Repr, Inhabited

/-- Line and column as people count them, from one. -/
def Place.describe (p : Place) : String :=
  toString (p.line + 1) ++ ":" ++ toString (p.column + 1)

/-- Where a piece of text stands: its bytes, and the places of its two ends. -/
structure Span where
  range : Range
  start : Place
  stop : Place
  deriving DecidableEq, Repr, Inhabited

/-- The byte range, and the two places in parentheses. -/
def Span.describe (s : Span) : String :=
  s.range.describe ++ " (" ++ s.start.describe ++ "-" ++ s.stop.describe ++ ")"

/-- A position between two characters of a text. -/
structure Mark where
  offset : Nat
  place : Place
  deriving DecidableEq, Repr, Inhabited

namespace Mark

/-- The mark in front of a text. -/
def start : Mark := ⟨0, ⟨0, 0⟩⟩

/-- The mark behind one more character. -/
def step (m : Mark) (c : Char) : Mark where
  offset := m.offset + c.utf8Size
  place := if c = '\n' then ⟨m.place.line + 1, 0⟩
    else ⟨m.place.line, m.place.column + c.utf8Size⟩

/-- The mark behind a piece of text. -/
def past (m : Mark) (cs : List Char) : Mark := cs.foldl step m

@[simp] theorem past_nil (m : Mark) : m.past [] = m := rfl

@[simp] theorem past_cons (m : Mark) (c : Char) (cs : List Char) :
    m.past (c :: cs) = (m.step c).past cs := rfl

theorem past_append (m : Mark) (cs ds : List Char) :
    m.past (cs ++ ds) = (m.past cs).past ds :=
  List.foldl_append ..

/-- The piece of text between two marks. -/
def span (m n : Mark) : Span := ⟨⟨m.offset, n.offset⟩, m.place, n.place⟩

end Mark

/-- The place of a byte offset, reading on from a mark; an offset inside a
character counts its bytes. -/
def placeFrom (m : Mark) (cs : List Char) (offset : Nat) : Place :=
  match cs with
  | [] => ⟨m.place.line, m.place.column + (offset - m.offset)⟩
  | c :: cs =>
    if (m.step c).offset ≤ offset then placeFrom (m.step c) cs offset
    else ⟨m.place.line, m.place.column + (offset - m.offset)⟩

/-- The place of a byte offset of a text. -/
def placeAt (text : String) (offset : Nat) : Place :=
  placeFrom .start text.toList offset

end Lossless.Text
