import Lossless.Number.Binary64

/-!
# Decimal numerals

A decimal numeral is a run of digits, an optional point and fraction, and an
optional power of ten. What it denotes is rounded once, from the exact value, so
a numeral with any number of digits is read correctly. Only the power of ten is
bounded: its digits count up to the one that takes it to `exponentBound`.
-/

namespace Lossless

/-- The number `digits * 10 ^ exponent`, not yet rounded. -/
structure Decimal where
  digits : Nat
  exponent : Int
  deriving DecidableEq, Repr

namespace Decimal

/-- The value of a digit in base ten. -/
def digitValue (c : Char) : Nat := c.toNat - '0'.toNat

/-- A number of which digits are being read. The last few digits are kept apart
from those in front of them, so most steps are on small numbers. -/
structure Digits where
  high : Nat
  low : Nat
  /-- Ten to the number of digits in `low`. -/
  unit : Nat

namespace Digits

/-- No digits. -/
def empty : Digits := ⟨0, 0, 1⟩

/-- The number that the digits denote. -/
def value (ds : Digits) : Nat := ds.high * ds.unit + ds.low

/-- One more digit behind the others. -/
def push (ds : Digits) (digit : Nat) : Digits :=
  if ds.unit < 1000000000000000000 then
    ⟨ds.high, 10 * ds.low + digit, 10 * ds.unit⟩
  else ⟨ds.value, digit, 10⟩

theorem value_push (ds : Digits) (digit : Nat) :
    (ds.push digit).value = 10 * ds.value + digit := by
  unfold push
  split
  · simp only [value, Nat.mul_left_comm ds.high, Nat.mul_add, Nat.add_assoc]
  · exact congrArg (· + digit) (Nat.mul_comm ds.value 10)

end Digits

/-- The number that a run of digits denotes. -/
def ofDigits (digits : List Char) : Nat :=
  (digits.foldl (fun ds c => ds.push (digitValue c)) Digits.empty).value

theorem value_foldl_push (digits : List Char) (ds : Digits) :
    (digits.foldl (fun ds c => ds.push (digitValue c)) ds).value =
      digits.foldl (fun n c => 10 * n + digitValue c) ds.value := by
  induction digits generalizing ds with
  | nil => rfl
  | cons c cs ih => rw [List.foldl_cons, ih, Digits.value_push, List.foldl_cons]

theorem ofDigits_eq_foldl (digits : List Char) :
    ofDigits digits = digits.foldl (fun n c => 10 * n + digitValue c) 0 :=
  value_foldl_push digits Digits.empty

/-- From here on a power of ten takes up no further digit. -/
def exponentBound : Nat := 65536

/-- The power of ten that a run of digits denotes. -/
def ofExponentDigits (digits : List Char) : Nat :=
  digits.foldl
    (fun n c => if n < exponentBound then 10 * n + digitValue c else n) 0

/-- The number of digits that a natural number is written with. -/
def width (n : Nat) : Nat := (Nat.toDigits 10 n).length

/-- The power of ten at the end of a numeral: nothing, or the letter, a sign and
at least one digit. -/
def exponentPart? : List Char → Option Int
  | [] => some 0
  | c :: cs =>
    if c == 'e' || c == 'E' then
      let (negative, digits) := match cs with
        | '-' :: ds => (true, ds)
        | '+' :: ds => (false, ds)
        | ds => (false, ds)
      if digits.isEmpty || !digits.all Char.isDigit then none
      else
        let n : Nat := ofExponentDigits digits
        some (if negative then -n else n)
    else none

/-- Reads a numeral. It needs a digit in front of the point or behind it. -/
def read? (cs : List Char) : Option Decimal :=
  let whole := cs.takeWhile Char.isDigit
  let (fraction, rest) := match cs.dropWhile Char.isDigit with
    | '.' :: ds => (ds.takeWhile Char.isDigit, ds.dropWhile Char.isDigit)
    | rest => ([], rest)
  if whole.isEmpty && fraction.isEmpty then none
  else (exponentPart? rest).map fun e =>
    ⟨ofDigits (whole ++ fraction), e - fraction.length⟩

/-- The number nearest to a decimal one. Far outside the range of
binary64 the answer is settled by the number of bits alone, and the
power of ten is not worked out: a bit is worth between three tenths and
a third of a decimal digit. -/
def toBinary64 (d : Decimal) (negative : Bool) : Binary64 :=
  let bits := d.digits.log2
  if d.digits = 0 ∨ d.exponent + (bits / 3 + 1 : Nat) < -330 then .zero negative
  else if 310 < d.exponent + (3 * bits / 10 : Nat) then .infinite negative
  else .ofRatio negative (d.digits * Nat.pow 10 d.exponent.toNat)
    (Nat.pow 10 (-d.exponent).toNat)

end Decimal

end Lossless
