/-!
# Blanks and line terminators

Four characters end a line of program text. The other characters that only
separate are blanks. The two classes are disjoint, so a run of blanks
never crosses a line.
-/

namespace Lossless.Text

/-- The characters that end a line: line feed, carriage return, and the two
Unicode separators. -/
def isLineTerminator (c : Char) : Bool :=
  c == '\n' || c == '\r' || c == '\u2028' || c == '\u2029'

/-- The blanks: Unicode white space except line terminators and U+0085, and the
byte order mark. -/
def isBlank (c : Char) : Bool :=
  c == ' ' || c == '\t' || c == '\x0b' || c == '\x0c' || c == '\u00a0' ||
    c == '\u1680' || ('\u2000' ≤ c && c ≤ '\u200a') || c == '\u202f' ||
    c == '\u205f' || c == '\u3000' || c == '\ufeff'

theorem isLineTerminator_eq_false_of_isBlank {c : Char} (h : isBlank c = true) :
    isLineTerminator c = false := by
  rw [Bool.eq_false_iff]
  intro hl
  simp only [isLineTerminator, Bool.or_eq_true, beq_iff_eq] at hl
  rcases hl with ((rfl | rfl) | rfl) | rfl <;> revert h <;> decide

end Lossless.Text
