/-!
# Numbers in binary64

A finite number is a sign, a significand of at most 53 bits and a power of
two, in the one canonical form: the significand has all its 53 bits unless the
exponent is already the least one. So two finite numbers other than the zeros
are equal exactly when their three parts are. `ofRatio` rounds an exact
quotient to the nearest number, a half to the even significand; what is too
large becomes infinite.
-/

namespace Lossless

/-- The pairs of significand and exponent that stand for a finite number, one
pair for each value. -/
def Binary64.Canonical (significand : Nat) (exponent : Int) : Prop :=
  significand < 1 <<< 53 ∧ -1074 ≤ exponent ∧ exponent ≤ 971 ∧
    (exponent = -1074 ∨ 1 <<< 52 ≤ significand)

instance (m : Nat) (e : Int) : Decidable (Binary64.Canonical m e) :=
  inferInstanceAs (Decidable (_ ∧ _ ∧ _ ∧ _))

/-- A number of the format binary64; a finite one has the value
`±significand * 2 ^ exponent`. -/
inductive Binary64 where
  | nan
  | infinite (negative : Bool)
  | finite (negative : Bool) (significand : Nat) (exponent : Int)
      (canonical : Binary64.Canonical significand exponent)
  deriving DecidableEq

namespace Binary64

/-- The zero of a sign. -/
def zero (negative : Bool) : Binary64 := .finite negative 0 (-1074) (by decide)

instance : Inhabited Binary64 := ⟨zero false⟩

def isFinite : Binary64 → Bool
  | .finite .. => true
  | _ => false

def isNaN : Binary64 → Bool
  | .nan => true
  | _ => false

/-- Equality of values: nothing equals a number that is not one, and the two
zeros are equal. -/
def equal : Binary64 → Binary64 → Bool
  | .infinite s, .infinite t => s == t
  | .finite s m e _, .finite t n f _ => m == n && e == f && (s == t || m == 0)
  | _, _ => false

/-- The quotient of two numbers rounded to the nearest integer, a half
to the even one. -/
def roundQuotient (num den : Nat) : Nat :=
  let q := num / den
  let r := num % den
  if 2 * r < den then q else if den < 2 * r then q + 1 else q + q % 2

/-- The finite number with the given parts, or the infinite one where they are
no canonical pair. -/
def ofParts (negative : Bool) (significand : Nat) (exponent : Int) : Binary64 :=
  if h : Canonical significand exponent then
    .finite negative significand exponent h
  else .infinite negative

/-- The least exponent at which the quotient has at most 53 bits
before its point. -/
def exponentOf (num den : Nat) : Int :=
  let e : Int := num.log2 - den.log2 - 53
  let e := if num <<< (-e).toNat < den <<< (53 + e.toNat) then e else e + 1
  max e (-1074)

/-- The number nearest to `num / den`, a half to the even significand. -/
def ofRatio (negative : Bool) (num den : Nat) : Binary64 :=
  if num = 0 then zero negative
  else
    let e := exponentOf num den
    let m := roundQuotient (num <<< (-e).toNat) (den <<< e.toNat)
    if m = 1 <<< 53 then ofParts negative (1 <<< 52) (e + 1)
    else ofParts negative m e

/-- The number nearest to a natural number. -/
def ofNat (n : Nat) : Binary64 := ofRatio false n 1

/-- The number nearest to an integer. -/
def ofInt (i : Int) : Binary64 := ofRatio (i < 0) i.natAbs 1

/-- The number nearest to `16 * x + digit`, for a number `x` that
is not negative. -/
def appendHex (x : Binary64) (digit : Nat) : Binary64 :=
  match x with
  | .finite _ m e _ =>
    ofRatio false ((16 * m) <<< e.toNat + digit <<< (-e).toNat)
      (1 <<< (-e).toNat)
  | other => other

/-- The value as an integer, if it is one and `limit` bounds its magnitude. -/
def integer? (limit : Nat) : Binary64 → Option Int
  | .finite negative m e _ =>
    let num := m <<< e.toNat
    let den := 1 <<< (-e).toNat
    if num % den = 0 ∧ num / den ≤ limit then
      some (if negative then -(num / den : Nat) else (num / den : Nat))
    else none
  | _ => none

end Binary64

end Lossless
