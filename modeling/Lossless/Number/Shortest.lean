import Lossless.Number.Decimal

/-!
# The shortest numeral of a number

Every real number between two midpoints reads back as the same binary64 number,
and so do the midpoints themselves when its significand is even. `shortest`
looks for a decimal number in that interval on grids of one digit, two digits
and so on; on a grid it is enough to try the two neighbours of the value. The
first grid with a hit wins, of two hits the nearer one, and of two equally near
ones the even one.
-/

namespace Lossless

namespace Decimal

/-- Drops the zeros at the end of the digits, for at most `fuel` of them. -/
def trim : Nat → Decimal → Decimal
  | 0, d => d
  | fuel + 1, d =>
    if d.digits ≠ 0 ∧ d.digits % 10 = 0
      then trim fuel ⟨d.digits / 10, d.exponent + 1⟩ else d

/-- A decimal number over a power of ten as a quotient. -/
def ratio (digits : Nat) (exponent : Int) : Nat × Nat :=
  (digits * Nat.pow 10 exponent.toNat, Nat.pow 10 (-exponent).toNat)

end Decimal

namespace Binary64

/-- The exponent of the first decimal digit of a positive quotient. -/
def leadingPlace (num den : Nat) : Int :=
  if den ≤ num then Decimal.width (num / den) - 1
  else
    let w := Decimal.width (den / num)
    if den ≤ num * Nat.pow 10 (w - 1) then 1 - w else -w

/-- The interval of values that round to `m * 2 ^ e`, as two numerators over a
common denominator, with the value itself between them. Below a power of two the
spacing is halved. -/
def neighbourhood (m : Nat) (e : Int) : Nat × Nat × Nat × Nat :=
  let below := if m = 1 <<< 52 ∧ -1074 < e then 1 else 2
  ((4 * m - below) <<< e.toNat, (4 * m) <<< e.toNat, (4 * m + 2) <<< e.toNat,
    4 <<< (-e).toNat)

/-- A decimal number on the grid of the given power of ten that reads back as
`m * 2 ^ e`, if one of the two neighbours of the value does. -/
def onGrid? (m : Nat) (e : Int) (exponent : Int) : Option Decimal :=
  let (low, value, high, den) := neighbourhood m e
  let (unit, unitDen) := Decimal.ratio 1 exponent
  let floor := value * unitDen / (den * unit)
  let inside (n : Nat) : Bool :=
    let x := n * unit * den
    if m % 2 = 0 then low * unitDen ≤ x ∧ x ≤ high * unitDen
    else low * unitDen < x ∧ x < high * unitDen
  let up := 2 * (value * unitDen) > (2 * floor + 1) * (den * unit) ∨
    (2 * (value * unitDen) = (2 * floor + 1) * (den * unit) ∧ floor % 2 = 1)
  match inside floor, inside (floor + 1) with
  | true, true => some ⟨if up then floor + 1 else floor, exponent⟩
  | true, false => some ⟨floor, exponent⟩
  | false, true => some ⟨floor + 1, exponent⟩
  | false, false => none

/-- The shortest decimal number that reads back as `m * 2 ^ e`, without zeros at
its end. Seventeen digits always suffice. -/
def shortest (m : Nat) (e : Int) : Decimal :=
  let place := leadingPlace (m <<< e.toNat) (1 <<< (-e).toNat)
  let grids := (List.range 17).map fun k : Nat => place - k
  match grids.findSome? (onGrid? m e) with
  | some d => d.trim 17
  | none => ⟨0, 0⟩

end Binary64

/-- How a number with a fraction or a large magnitude is written. -/
structure NumberFormat where
  /-- The least exponent of the first digit that is written positionally. -/
  lowest : Int
  /-- The greatest exponent of the first digit that is written positionally. -/
  highest : Int
  /-- Whether a positional numeral without fraction keeps a point and a zero. -/
  pointZero : Bool
  /-- The sign of an exponent that is not negative. -/
  plus : String

namespace NumberFormat

/-- `n` zeros. -/
def zeros (n : Nat) : String := String.ofList (List.replicate n '0')

/-- The numeral of a positive decimal number. -/
def write (f : NumberFormat) (d : Decimal) : String :=
  let digits := Nat.toDigits 10 d.digits
  let place := d.exponent + digits.length - 1
  if f.lowest ≤ place ∧ place ≤ f.highest then
    if 0 ≤ d.exponent then
      String.ofList digits ++ zeros d.exponent.toNat ++
        (if f.pointZero then ".0" else "")
    else if 0 ≤ place then
      String.ofList (digits.take (place.toNat + 1)) ++ "." ++
        String.ofList (digits.drop (place.toNat + 1))
    else "0." ++ zeros ((-place).toNat - 1) ++ String.ofList digits
  else
    let fraction := digits.drop 1
    String.ofList (digits.take 1) ++
      (if fraction.isEmpty then "" else "." ++ String.ofList fraction) ++
      "e" ++ (if place < 0 then "-" else f.plus) ++ toString place.natAbs

end NumberFormat

end Lossless
