import Lossless.Number.Binary64
import Mathlib.Data.Nat.Dist
import Mathlib.Algebra.Order.Ring.Nat

/-!
# Rounding to the nearest number

`Nearest num den x` says of a number, by itself, that it is a nearest one to a
quotient, and that its significand is even if there is another. All finite
numbers are multiples of the least positive one, so their magnitudes are
compared as natural numbers in this unit; an infinite number counts as the first
power of two that is too large for a finite one, with an even significand.
Rounding a quotient yields the one nearest number (`nearest_iff`), so it depends
on the value of the quotient alone.
-/

namespace Lossless.Binary64

/-! ### Magnitudes -/

/-- The place of an exponent above the least one. -/
def place (e : Int) : Nat := (e + 1074).toNat

/-- How many of the least positive number make one. -/
def unit : Nat := 2 ^ 1074

theorem unit_pos : 0 < unit := by
  rw [unit]
  apply Nat.two_pow_pos

/-- The magnitude in multiples of the least positive number. -/
def magnitude : Binary64 → Nat
  | .nan => 0
  | .infinite _ => 2 ^ 53 * 2 ^ 2045
  | .finite _ m e _ => m * 2 ^ place e

/-- The last bit of the significand is zero, as in every power of two that
has bits to spare. -/
def IsEven : Binary64 → Prop
  | .nan => False
  | .infinite _ => True
  | .finite _ m _ _ => m % 2 = 0

def isNegative : Binary64 → Bool
  | .nan => false
  | .infinite negative => negative
  | .finite negative _ _ _ => negative

/-- A number that is not negative is nearest to `num / den`: no number is
nearer, and its significand is even if another one is as near. -/
structure Nearest (num den : Nat) (x : Binary64) : Prop where
  isNaN_eq : x.isNaN = false
  isNegative_eq : x.isNegative = false
  dist_le : ∀ y : Binary64, y.isNaN = false →
    Nat.dist (num * unit) (x.magnitude * den) ≤
      Nat.dist (num * unit) (y.magnitude * den)
  isEven : ∀ y : Binary64, y.isNaN = false → y.magnitude ≠ x.magnitude →
    Nat.dist (num * unit) (x.magnitude * den) =
      Nat.dist (num * unit) (y.magnitude * den) → x.IsEven

namespace Canonical

variable {m : Nat} {e : Int}

theorem lt (h : Canonical m e) : m < 2 ^ 53 := h.1

theorem le (h : Canonical m e) : -1074 ≤ e := h.2.1

theorem place_le (h : Canonical m e) : place e ≤ 2045 := by
  obtain ⟨-, -, hle, -⟩ := h
  rw [place]
  omega

theorem le_of_place_pos (h : Canonical m e) (he : 0 < place e) : 2 ^ 52 ≤ m :=
  h.2.2.2.resolve_left fun hleast => by
    rw [hleast] at he
    exact absurd he (by decide)

/-- The canonical pairs in terms of the place. -/
theorem of_place {p : Nat} (hm : m < 2 ^ 53) (hp : p ≤ 2045)
    (hfull : p = 0 ∨ 2 ^ 52 ≤ m) : Canonical m (p - 1074) :=
  ⟨hm, by omega, by omega, hfull.imp (fun h => by omega) id⟩

end Canonical

theorem place_sub (p : Nat) : place (p - 1074) = p := by
  rw [place]
  omega

theorem sub_place {e : Int} (h : -1074 ≤ e) : (place e : Int) - 1074 = e := by
  rw [place]
  omega

/-- Of the shifts by an exponent and by its negation one is by nothing; with a
common one behind them they are those by the place and by the place of one. -/
theorem exists_shift {e : Int} (h : -1074 ≤ e) :
    ∃ c, e.toNat + c = place e ∧ 2 ^ ((-e).toNat + c) = unit :=
  ⟨1074 - (-e).toNat, by rw [place]; omega, by rw [unit]; congr 1; omega⟩

theorem two_pow_le {p q : Nat} (h : p ≤ q) : 2 ^ p ≤ 2 ^ q :=
  Nat.pow_le_pow_right Nat.two_pos h

/-- A power of two splits off a lower one. -/
theorem two_pow_split {p q : Nat} (h : p ≤ q) :
    2 ^ q = 2 ^ (q - p) * 2 ^ p := by
  rw [← pow_add, Nat.sub_add_cancel h]

/-- One bit more is one place more. -/
theorem two_pow_carry (p : Nat) : 2 ^ 53 * 2 ^ p = 2 ^ 52 * 2 ^ (p + 1) := by
  rw [← pow_add, ← pow_add]
  congr 1
  omega

/-- At a lower place everything is less than what has all its bits. -/
theorem mul_two_pow_lt {m p q : Nat} (hm : m < 2 ^ 53) (h : p < q) :
    m * 2 ^ p < 2 ^ 52 * 2 ^ q :=
  calc m * 2 ^ p
      < 2 ^ 53 * 2 ^ p := Nat.mul_lt_mul_of_pos_right hm (Nat.two_pow_pos p)
    _ = 2 ^ 52 * 2 ^ (p + 1) := two_pow_carry p
    _ ≤ 2 ^ 52 * 2 ^ q := Nat.mul_le_mul_left _ (two_pow_le h)

theorem magnitude_lt {s : Bool} {m : Nat} {e : Int} (h : Canonical m e) :
    magnitude (.finite s m e h) < magnitude (.infinite s) := by
  have hm : m * 2 ^ place e < 2 ^ 53 * 2 ^ place e :=
    Nat.mul_lt_mul_of_pos_right h.lt (Nat.two_pow_pos _)
  have hplace := Nat.mul_le_mul_left (2 ^ 53) (two_pow_le h.place_le)
  simp only [magnitude]
  exact Nat.lt_of_lt_of_le hm hplace

/-- No magnitude is above that of an infinite number. -/
theorem magnitude_le (s : Bool) (x : Binary64) :
    x.magnitude ≤ magnitude (.infinite s) := by
  cases x with
  | nan => exact Nat.zero_le _
  | infinite t => exact Nat.le_refl _
  | finite t m e h => exact Nat.le_of_lt (magnitude_lt (s := t) h)

/-- Of two canonical pairs with one value none has the lower place. -/
theorem place_le_of_mul_eq {m n : Nat} {e f : Int} (hm : Canonical m e)
    (hn : Canonical n f) (h : m * 2 ^ place e = n * 2 ^ place f) :
    place e ≤ place f := by
  refine Nat.le_of_not_lt fun hlt => ?_
  have hfull := hm.le_of_place_pos (Nat.zero_lt_of_lt hlt)
  exact absurd (Nat.lt_of_lt_of_le (mul_two_pow_lt hn.lt hlt)
    (Nat.mul_le_mul_right _ hfull)) (by omega)

/-- The parts of a finite number are determined by its magnitude. -/
theorem Canonical.eq_of_mul_eq {m n : Nat} {e f : Int} (hm : Canonical m e)
    (hn : Canonical n f) (h : m * 2 ^ place e = n * 2 ^ place f) :
    m = n ∧ e = f := by
  have hplace := Nat.le_antisymm (place_le_of_mul_eq hm hn h)
    (place_le_of_mul_eq hn hm h.symm)
  rw [hplace] at h
  refine ⟨Nat.eq_of_mul_eq_mul_right (Nat.two_pow_pos _) h, ?_⟩
  obtain ⟨-, hle, -, -⟩ := hm
  obtain ⟨-, hle', -, -⟩ := hn
  simp only [place] at hplace
  omega

theorem eq_of_magnitude_eq {x y : Binary64} (hx : x.isNaN = false)
    (hy : y.isNaN = false) (hsign : x.isNegative = y.isNegative)
    (h : x.magnitude = y.magnitude) : x = y := by
  cases x with
  | nan => exact absurd hx (by decide)
  | infinite s =>
    cases y with
    | nan => exact absurd hy (by decide)
    | infinite t => exact congrArg infinite hsign
    | finite t n f hn =>
      exact absurd h (Nat.ne_of_gt (magnitude_lt (s := t) hn))
  | finite s m e hm =>
    cases y with
    | nan => exact absurd hy (by decide)
    | infinite t => exact absurd h (Nat.ne_of_lt (magnitude_lt (s := t) hm))
    | finite t n f hn =>
      obtain ⟨rfl, rfl⟩ := hm.eq_of_mul_eq hn h
      exact congrArg (finite · m e hm) hsign

/-- A magnitude is a multiple of the power of two at a place, or below all that
have their bits there. -/
theorem magnitude_grid (p : Nat) (x : Binary64) :
    (∃ k, x.magnitude = k * 2 ^ p) ∨
      (0 < p ∧ x.magnitude < 2 ^ 52 * 2 ^ p) := by
  -- the magnitude of a number that is one of `m` units at the place `q`
  have grid {m q : Nat} (hm : m < 2 ^ 53) :
      (∃ k, m * 2 ^ q = k * 2 ^ p) ∨ (0 < p ∧ m * 2 ^ q < 2 ^ 52 * 2 ^ p) := by
    rcases Nat.lt_or_ge q p with h | h
    · exact .inr ⟨Nat.zero_lt_of_lt h, mul_two_pow_lt hm h⟩
    · exact .inl ⟨m * 2 ^ (q - p), by rw [two_pow_split h, Nat.mul_assoc]⟩
  cases x with
  | nan => exact .inl ⟨0, (Nat.zero_mul _).symm⟩
  | finite s m e h => exact grid h.lt
  | infinite s =>
    rw [magnitude, two_pow_carry]
    exact grid (by decide)

/-! ### The quotient rounded -/

/-- Rounding a quotient of integers is to a nearest one. -/
theorem roundQuotient_cases (a d : Nat) :
    (roundQuotient a d = a / d ∧ 2 * (a % d) ≤ d) ∨
      (roundQuotient a d = a / d + 1 ∧ d ≤ 2 * (a % d)) := by
  simp only [roundQuotient]
  split
  · exact .inl ⟨rfl, by omega⟩
  · split
    · exact .inr ⟨rfl, by omega⟩
    · rcases Nat.mod_two_eq_zero_or_one (a / d) with h | h <;> rw [h]
      · exact .inl ⟨rfl, by omega⟩
      · exact .inr ⟨rfl, by omega⟩

theorem roundQuotient_scale {c : Nat} (hc : 0 < c) (a d : Nat) :
    roundQuotient (a * c) (d * c) = roundQuotient a d := by
  have hdouble : 2 * (a % d * c) = 2 * (a % d) * c := (Nat.mul_assoc _ _ _).symm
  simp only [roundQuotient, Nat.mul_div_mul_right _ _ hc, Nat.mul_mod_mul_right,
    hdouble, Nat.mul_lt_mul_right hc]

theorem roundQuotient_mul {d : Nat} (hd : 0 < d) (k : Nat) :
    roundQuotient (k * d) d = k := by
  simp only [roundQuotient, Nat.mul_mod_left, Nat.mul_div_cancel _ hd,
    Nat.mul_zero, hd, if_true]

/-- No multiple of the divisor is nearer. -/
theorem roundQuotient_nearest {d : Nat} (hd : 0 < d) (a k : Nat) :
    Nat.dist a (roundQuotient a d * d) ≤ Nat.dist a (k * d) := by
  have hdiv := Nat.div_add_mod' a d
  have hr := Nat.mod_lt a hd
  have hside : k * d ≤ a / d * d ∨ (a / d + 1) * d ≤ k * d :=
    (Nat.lt_or_ge (a / d) k).symm.imp (Nat.mul_le_mul_right d)
      (Nat.mul_le_mul_right d)
  rw [Nat.succ_mul] at hside
  rcases roundQuotient_cases a d with ⟨h, hle⟩ | ⟨h, hle⟩ <;> rw [h] <;>
    simp only [Nat.dist, Nat.succ_mul] <;> omega

/-- Two multiples that are as near are one apart, and rounding
has the even one. -/
theorem roundQuotient_tie {d : Nat} (hd : 0 < d) {a k : Nat}
    (hk : k ≠ roundQuotient a d)
    (h : Nat.dist a (roundQuotient a d * d) = Nat.dist a (k * d)) :
    roundQuotient a d % 2 = 0 ∧ (k = a / d ∨ k = a / d + 1) ∧ k % 2 = 1 := by
  have hdiv := Nat.div_add_mod' a d
  have hr := Nat.mod_lt a hd
  have hside : k = a / d ∨ k = a / d + 1 ∨ k * d + d ≤ a / d * d ∨
      a / d * d + 2 * d ≤ k * d := by
    rcases Nat.lt_trichotomy k (a / d) with hlt | heq | hgt
    · exact .inr (.inr (.inl (Nat.succ_mul k d ▸ Nat.mul_le_mul_right d hlt)))
    · exact .inl heq
    · rcases Nat.lt_or_eq_of_le hgt with hgt | heq
      · refine .inr (.inr (.inr ?_))
        rw [← Nat.add_mul]
        exact Nat.mul_le_mul_right d hgt
      · exact .inr (.inl heq.symm)
  have hnext : (a / d + 1) * d = a / d * d + d := Nat.succ_mul _ _
  -- the tie is at the half, where `roundQuotient` adds the last bit of
  -- the quotient to it
  have hhalf : 2 * (a % d) = d ∧ (k = a / d ∨ k = a / d + 1) := by
    rcases roundQuotient_cases a d with ⟨hround, hle⟩ | ⟨hround, hle⟩ <;>
      rw [hround] at h hk <;> simp only [Nat.dist] at h <;>
      rcases hside with rfl | rfl | hfar | hfar <;> omega
  have hround : roundQuotient a d = a / d + a / d % 2 := by
    simp only [roundQuotient, hhalf.1, Nat.lt_irrefl, if_false]
  rw [hround] at hk ⊢
  omega

/-! ### The place of a quotient -/

/-- The place at which `a / d` has its 53 bits, or the least one
if it has fewer. -/
structure IsPlace (a d p : Nat) : Prop where
  lt : a < d * 2 ^ (p + 53)
  le : p = 0 ∨ d * 2 ^ (p + 52) ≤ a

/-- Powers of two on both sides count by their difference. -/
theorem mul_two_pow_lt_iff {x y a b a' b' : Nat} (h : a + b' = a' + b) :
    x * 2 ^ a < y * 2 ^ b ↔ x * 2 ^ a' < y * 2 ^ b' :=
  calc x * 2 ^ a < y * 2 ^ b
      ↔ x * 2 ^ a * 2 ^ b' < y * 2 ^ b * 2 ^ b' :=
        (Nat.mul_lt_mul_right (Nat.two_pow_pos b')).symm
    _ ↔ x * 2 ^ a' * 2 ^ b < y * 2 ^ b' * 2 ^ b := by
      rw [Nat.mul_assoc, ← pow_add, h, pow_add, ← Nat.mul_assoc,
        Nat.mul_right_comm y]
    _ ↔ x * 2 ^ a' < y * 2 ^ b' := Nat.mul_lt_mul_right (Nat.two_pow_pos b)

variable {num den : Nat}

/-- The number of bits in front of the point is the difference of those of the
two numbers, or one more. -/
theorem exponentOf_spec (hnum : 0 < num) (hden : 0 < den) :
    ∃ e : Int, exponentOf num den = max e (-1074) ∧
      (∀ a b : Nat, (b : Int) - a = e + 53 → num * 2 ^ a < den * 2 ^ b) ∧
      (∀ a b : Nat, (b : Int) - a = e + 52 → den * 2 ^ b ≤ num * 2 ^ a) := by
  have hnumle := Nat.log2_self_le (Nat.ne_of_gt hnum)
  have hnumlt := Nat.lt_log2_self (n := num)
  have hdenle := Nat.log2_self_le (Nat.ne_of_gt hden)
  have hdenlt := Nat.lt_log2_self (n := den)
  rw [exponentOf]
  generalize num.log2 = n at *
  generalize den.log2 = d at *
  simp only [Nat.shiftLeft_eq]
  split
  case isTrue h =>
    refine ⟨_, rfl, fun a b hab => (mul_two_pow_lt_iff ?_).1 h,
      fun a b hab => ?_⟩
    · omega
    · have hlow : den * 2 ^ b < 2 ^ (d + 1) * 2 ^ b :=
        Nat.mul_lt_mul_of_pos_right hdenlt (Nat.two_pow_pos b)
      have hsum : 2 ^ (d + 1) * 2 ^ b = 2 ^ n * 2 ^ a := by
        rw [← pow_add, ← pow_add]
        congr 1
        omega
      exact Nat.le_of_lt
        (Nat.lt_of_lt_of_le hlow (hsum ▸ Nat.mul_le_mul_right _ hnumle))
  case isFalse h =>
    refine ⟨_, rfl, fun a b hab => ?_, fun a b hab =>
      Nat.le_of_not_lt fun hlt => h ((mul_two_pow_lt_iff ?_).1 hlt)⟩
    · have hhigh : num * 2 ^ a < 2 ^ (n + 1) * 2 ^ a :=
        Nat.mul_lt_mul_of_pos_right hnumlt (Nat.two_pow_pos a)
      have hsum : 2 ^ (n + 1) * 2 ^ a = 2 ^ d * 2 ^ b := by
        rw [← pow_add, ← pow_add]
        congr 1
        omega
      exact Nat.lt_of_lt_of_le hhigh (hsum ▸ Nat.mul_le_mul_right _ hdenle)
    · omega

theorem isPlace_exponentOf (hnum : 0 < num) (hden : 0 < den) :
    -1074 ≤ exponentOf num den ∧
      IsPlace (num * unit) den (place (exponentOf num den)) := by
  obtain ⟨e, he, hlt, hle⟩ := exponentOf_spec hnum hden
  rw [he]
  refine ⟨Int.le_max_right _ _, ?_⟩
  rcases Int.le_total (-1074) e with h | h
  · rw [Int.max_eq_left h]
    exact ⟨hlt _ _ (by rw [place]; omega),
      .inr (hle _ _ (by rw [place]; omega))⟩
  · rw [Int.max_eq_right h]
    have hsmall := hlt (1074 + (-1074 - e).toNat) 53 (by omega)
    refine ⟨Nat.lt_of_le_of_lt (Nat.mul_le_mul_left _ ?_) hsmall, .inl rfl⟩
    rw [unit]
    exact two_pow_le (Nat.le_add_right _ _)

namespace IsPlace

variable {a d p q : Nat}

theorem pos (h : IsPlace a d p) : 0 < d :=
  Nat.pos_of_ne_zero fun hzero => absurd h.lt (by simp [hzero])

theorem le_of_isPlace (hp : IsPlace a d p) (hq : IsPlace a d q) : p ≤ q := by
  rcases hp.le with rfl | hle
  · exact Nat.zero_le q
  · have hpow := Nat.lt_of_mul_lt_mul_left (Nat.lt_of_le_of_lt hle hq.lt)
    have := (Nat.pow_lt_pow_iff_right Nat.one_lt_two).1 hpow
    omega

theorem eq_of_isPlace (hp : IsPlace a d p) (hq : IsPlace a d q) : p = q :=
  Nat.le_antisymm (hp.le_of_isPlace hq) (hq.le_of_isPlace hp)

theorem scale {c : Nat} (hc : 0 < c) (h : IsPlace a d p) :
    IsPlace (a * c) (d * c) p := by
  obtain ⟨hlt, hle⟩ := h
  refine ⟨?_, hle.imp_right fun hle => ?_⟩ <;> rw [Nat.mul_right_comm]
  · exact Nat.mul_lt_mul_of_pos_right hlt hc
  · exact Nat.mul_le_mul_right c hle

theorem mul_two_pow (d p n : Nat) : d * 2 ^ (p + n) = 2 ^ n * (d * 2 ^ p) := by
  rw [pow_add, ← Nat.mul_assoc, Nat.mul_comm]

/-- At its place a quotient has at most 53 bits, and all of them above
the least place. -/
theorem div_lt (h : IsPlace a d p) : a / (d * 2 ^ p) < 2 ^ 53 := by
  rw [Nat.div_lt_iff_lt_mul (Nat.mul_pos h.pos (Nat.two_pow_pos p)),
    ← mul_two_pow]
  exact h.lt

theorem le_div (h : IsPlace a d p) : p = 0 ∨ 2 ^ 52 ≤ a / (d * 2 ^ p) := by
  refine h.le.imp_right fun hle => ?_
  rw [Nat.le_div_iff_mul_le (Nat.mul_pos h.pos (Nat.two_pow_pos p)),
    ← mul_two_pow]
  exact hle

theorem roundQuotient_le (h : IsPlace a d p) :
    roundQuotient a (d * 2 ^ p) ≤ 2 ^ 53 := by
  have := h.div_lt
  rcases roundQuotient_cases a (d * 2 ^ p) with ⟨hround, -⟩ | ⟨hround, -⟩ <;>
    rw [hround] <;> omega

theorem le_roundQuotient (h : IsPlace a d p) :
    p = 0 ∨ 2 ^ 52 ≤ roundQuotient a (d * 2 ^ p) := by
  refine h.le_div.imp_right fun hle => ?_
  rcases roundQuotient_cases a (d * 2 ^ p) with ⟨hround, -⟩ | ⟨hround, -⟩ <;>
    rw [hround] <;> omega

end IsPlace

/-! ### The number that is packed -/

/-- The number of `m` units at a place, for at most `2 ^ 53` units. -/
def pack (negative : Bool) (m p : Nat) : Binary64 :=
  if m = 2 ^ 53 then ofParts negative (2 ^ 52) ((p : Int) - 1074 + 1)
  else ofParts negative m (p - 1074)

theorem ofRatio_eq_pack {p : Nat} (hp : IsPlace (num * unit) den p) (s : Bool) :
    ofRatio s num den =
      pack s (roundQuotient (num * unit) (den * 2 ^ p)) p := by
  rw [ofRatio]
  split
  case isTrue h =>
    subst h
    obtain rfl : p = 0 := hp.le.resolve_right (by simp [Nat.ne_of_gt hp.pos])
    have hround : roundQuotient 0 (den * 2 ^ 0) = 0 := by
      rw [roundQuotient]
      simp [hp.pos]
    rw [Nat.zero_mul, hround]
    rfl
  case isFalse h =>
    obtain ⟨hleast, hplace⟩ := isPlace_exponentOf (Nat.pos_of_ne_zero h) hp.pos
    obtain rfl := hplace.eq_of_isPlace hp
    generalize exponentOf num den = e at hleast
    obtain ⟨c, hshift, hunit⟩ := exists_shift hleast
    have hround : roundQuotient (num <<< (-e).toNat) (den <<< e.toNat) =
        roundQuotient (num * unit) (den * 2 ^ place e) := by
      rw [Nat.shiftLeft_eq, Nat.shiftLeft_eq,
        ← roundQuotient_scale (Nat.two_pow_pos c), Nat.mul_assoc, Nat.mul_assoc,
        ← pow_add, ← pow_add, hshift, hunit]
    simp only [hround, pack, sub_place hleast]
    rfl

section

variable {m p : Nat} (s : Bool)

theorem isNaN_ofParts (m : Nat) (e : Int) : (ofParts s m e).isNaN = false := by
  rw [ofParts]
  split <;> rfl

theorem isNegative_ofParts (m : Nat) (e : Int) :
    (ofParts s m e).isNegative = s := by
  rw [ofParts]
  split <;> rfl

theorem isNaN_pack : (pack s m p).isNaN = false := by
  rw [pack]
  split <;> exact isNaN_ofParts s _ _

theorem isNegative_pack : (pack s m p).isNegative = s := by
  rw [pack]
  split <;> exact isNegative_ofParts s _ _

theorem ofParts_of_place (hm : m < 2 ^ 53) (hp : p ≤ 2045)
    (hfull : p = 0 ∨ 2 ^ 52 ≤ m) :
    ofParts s m (p - 1074) = .finite s m (p - 1074) (.of_place hm hp hfull) :=
  dif_pos _

theorem ofParts_of_lt (hp : 2045 < p) : ofParts s m (p - 1074) = .infinite s :=
  dif_neg fun h => by
    have := h.place_le
    rw [place_sub] at this
    omega

theorem pack_of_lt (hm : m < 2 ^ 53) : pack s m p = ofParts s m (p - 1074) :=
  if_neg (Nat.ne_of_lt hm)

/-- The carry into a further bit moves to the next place. -/
theorem pack_carry : pack s (2 ^ 53) p = pack s (2 ^ 52) (p + 1) := by
  rw [pack, if_pos rfl, pack, if_neg (by decide)]
  congr 1
  omega

theorem pack_eq_infinite (hp : 2045 < p) : pack s m p = .infinite s := by
  rw [pack]
  split
  · rw [show (p : Int) - 1074 + 1 = ((p + 1 : Nat) : Int) - 1074 by omega]
    exact ofParts_of_lt s (Nat.lt_succ_of_lt hp)
  · exact ofParts_of_lt s hp

theorem isFinite_pack (hm : m < 2 ^ 53) (hfull : p = 0 ∨ 2 ^ 52 ≤ m) :
    (pack s m p).isFinite = decide (p ≤ 2045) := by
  rcases Nat.lt_or_ge 2045 p with hlarge | hsmall
  · rw [pack_eq_infinite s hlarge, decide_eq_false (Nat.not_le.2 hlarge)]
    rfl
  · rw [pack_of_lt s hm, ofParts_of_place s hm hsmall hfull,
      decide_eq_true hsmall]
    rfl

/-- What is packed at a place that exists is worth what was given, also where it
becomes infinite. -/
theorem pack_spec (hm : m ≤ 2 ^ 53) (hp : p ≤ 2045)
    (hfull : p = 0 ∨ 2 ^ 52 ≤ m) :
    (pack s m p).magnitude = m * 2 ^ p ∧ (m % 2 = 0 → (pack s m p).IsEven) ∧
      (m < 2 ^ 53 → (pack s m p).IsEven → m % 2 = 0) := by
  have fits {m p : Nat} (hm : m < 2 ^ 53)
      (hp : p ≤ 2045) (hfull : p = 0 ∨ 2 ^ 52 ≤ m) :
      (pack s m p).magnitude = m * 2 ^ p ∧
        ((pack s m p).IsEven ↔ m % 2 = 0) := by
    rw [pack_of_lt s hm, ofParts_of_place s hm hp hfull, magnitude, place_sub]
    exact ⟨rfl, .rfl⟩
  rcases Nat.lt_or_eq_of_le hm with hlt | rfl
  · obtain ⟨hmag, heven⟩ := fits hlt hp hfull
    exact ⟨hmag, heven.2, fun _ => heven.1⟩
  · refine ⟨?_, fun _ => ?_, fun h => absurd h (Nat.lt_irrefl _)⟩
    all_goals rw [pack_carry]; rcases Nat.lt_or_eq_of_le hp with hlt | rfl
    · rw [(fits (by decide) hlt (.inr (Nat.le_refl _))).1, two_pow_carry]
    · rw [pack_eq_infinite s (Nat.lt_succ_self _), magnitude]
    · exact (fits (by decide) hlt (.inr (Nat.le_refl _))).2.2 (by decide)
    · rw [pack_eq_infinite s (Nat.lt_succ_self _)]
      trivial

end

/-! ### The nearest number -/

/-- Beyond the places that exist, an infinite number is strictly nearer
than all others. -/
theorem dist_infinite {p : Nat} (hp : IsPlace (num * unit) den p)
    (hlarge : 2045 < p) (s : Bool) (y : Binary64) :
    Nat.dist (num * unit) (magnitude (.infinite s) * den) ≤
        Nat.dist (num * unit) (y.magnitude * den) ∧
      (Nat.dist (num * unit) (magnitude (.infinite s) * den) =
          Nat.dist (num * unit) (y.magnitude * den) →
        y.magnitude = magnitude (.infinite s)) := by
  have htop : magnitude (.infinite s) * den ≤ num * unit := by
    refine Nat.le_trans ?_ (hp.le.resolve_left (by omega))
    rw [magnitude, two_pow_carry, ← pow_add, Nat.mul_comm]
    exact Nat.mul_le_mul_left _ (two_pow_le (by omega))
  have hle := Nat.mul_le_mul_right den (magnitude_le s y)
  generalize magnitude (.infinite s) = top at *
  generalize num * unit = a at *
  simp only [Nat.dist]
  refine ⟨by omega, fun h => Nat.eq_of_mul_eq_mul_right hp.pos (by omega)⟩

/-- The rounded quotient is nearest among the multiples at its place, and
another one as near has an odd number of units there. -/
theorem dist_pack {p : Nat} (hp : IsPlace (num * unit) den p) (y : Binary64) :
    Nat.dist (num * unit)
        (roundQuotient (num * unit) (den * 2 ^ p) * 2 ^ p * den) ≤
      Nat.dist (num * unit) (y.magnitude * den) ∧ (Nat.dist (num * unit)
            (roundQuotient (num * unit) (den * 2 ^ p) * 2 ^ p * den) =
          Nat.dist (num * unit) (y.magnitude * den) →
        y.magnitude ≠ roundQuotient (num * unit) (den * 2 ^ p) * 2 ^ p →
        roundQuotient (num * unit) (den * 2 ^ p) % 2 = 0 ∧
          ∃ k, y.magnitude = k * 2 ^ p ∧
            k % 2 = 1 ∧ k ≤ 2 ^ 53 ∧ (p = 0 ∨ 2 ^ 52 ≤ k)) := by
  have hd : 0 < den * 2 ^ p := Nat.mul_pos hp.pos (Nat.two_pow_pos p)
  have units (k : Nat) : k * 2 ^ p * den = k * (den * 2 ^ p) := by
    rw [Nat.mul_assoc, Nat.mul_comm (2 ^ p)]
  rw [units]
  rcases magnitude_grid p y with ⟨k, hk⟩ | ⟨hpos, hlow⟩
  · rw [hk, units]
    refine ⟨roundQuotient_nearest hd _ k, fun heq hne => ?_⟩
    obtain ⟨heven, hnext, hodd⟩ :=
      roundQuotient_tie hd (fun h => hne (h ▸ rfl)) heq
    have hlt := hp.div_lt
    exact ⟨heven, k, rfl, hodd, by omega,
      hp.le_div.imp_right fun hle => by omega⟩
  · -- below the multiples that have all their bits the least of these is nearer
    have hfull := hp.le.resolve_left (Nat.ne_of_gt hpos)
    rw [IsPlace.mul_two_pow] at hfull
    have hnear := roundQuotient_nearest hd (num * unit) (2 ^ 52)
    have hfar : y.magnitude * den < 2 ^ 52 * (den * 2 ^ p) := by
      rw [← units]
      exact Nat.mul_lt_mul_of_pos_right hlow hp.pos
    generalize num * unit = a at *
    simp only [Nat.dist] at *
    exact ⟨by omega, fun heq => by omega⟩

/-- Every quotient has a place. -/
theorem exists_isPlace (num : Nat) (hden : 0 < den) :
    ∃ p, IsPlace (num * unit) den p := by
  rcases Nat.eq_zero_or_pos num with rfl | hnum
  · exact ⟨0, by simp [hden], .inl rfl⟩
  · exact ⟨_, (isPlace_exponentOf hnum hden).2⟩

theorem nearest_ofRatio (num : Nat) (hden : 0 < den) :
    Nearest num den (ofRatio false num den) := by
  obtain ⟨p, hp⟩ := exists_isPlace num hden
  rw [ofRatio_eq_pack hp]
  rcases Nat.lt_or_ge 2045 p with hlarge | hsmall
  · rw [pack_eq_infinite _ hlarge]
    exact ⟨rfl, rfl, fun y _ => (dist_infinite hp hlarge _ y).1,
      fun _ _ _ _ => trivial⟩
  · obtain ⟨hmag, heven, -⟩ :=
      pack_spec false hp.roundQuotient_le hsmall hp.le_roundQuotient
    refine ⟨isNaN_pack _, isNegative_pack _, fun y _ => ?_,
      fun y _ hne heq => ?_⟩
    · rw [hmag]
      exact (dist_pack hp y).1
    · rw [hmag] at hne heq
      exact heven ((dist_pack hp y).2 heq hne).1

/-- There is one nearest number, and it is what the quotient is rounded to. -/
theorem nearest_iff (hden : 0 < den) {x : Binary64} :
    Nearest num den x ↔ x = ofRatio false num den := by
  refine ⟨fun h => ?_, fun h => h ▸ nearest_ofRatio num hden⟩
  have hr := nearest_ofRatio num hden
  have heq :=
    Nat.le_antisymm (hr.dist_le x h.isNaN_eq) (h.dist_le _ hr.isNaN_eq)
  refine eq_of_magnitude_eq h.isNaN_eq hr.isNaN_eq
    (h.isNegative_eq.trans hr.isNegative_eq.symm) ?_
  refine Decidable.byContradiction fun hne => ?_
  have hxeven := h.isEven _ hr.isNaN_eq (Ne.symm hne) heq.symm
  obtain ⟨p, hp⟩ := exists_isPlace num hden
  rw [ofRatio_eq_pack hp] at heq hne
  rcases Nat.lt_or_ge 2045 p with hlarge | hsmall
  · rw [pack_eq_infinite _ hlarge] at heq hne
    exact hne ((dist_infinite hp hlarge _ x).2 heq)
  · rw [(pack_spec false hp.roundQuotient_le hsmall hp.le_roundQuotient).1]
      at heq hne
    obtain ⟨-, k, hk, hodd, hle, hfull⟩ := (dist_pack hp x).2 heq hne
    -- the other number of units is odd, so it is the significand, and the
    -- number is not even
    obtain ⟨hmag, -, hodd'⟩ := pack_spec false hle hsmall hfull
    have hx : x = pack false k p :=
      eq_of_magnitude_eq h.isNaN_eq (isNaN_pack _)
        (h.isNegative_eq.trans (isNegative_pack _).symm) (hk.trans hmag.symm)
    have := hodd' (by omega) (hx ▸ hxeven)
    omega

/-- Rounding depends on the value of the quotient alone. -/
theorem ofRatio_scale {c : Nat} (hc : 0 < c) (hden : 0 < den) (s : Bool)
    (num : Nat) : ofRatio s (num * c) (den * c) = ofRatio s num den := by
  obtain ⟨p, hp⟩ := exists_isPlace num hden
  have hscale := hp.scale hc
  rw [Nat.mul_right_comm] at hscale
  rw [ofRatio_eq_pack hp, ofRatio_eq_pack hscale, Nat.mul_right_comm num,
    Nat.mul_right_comm den, roundQuotient_scale hc]

/-! ### Integers -/

/-- A finite number is the one that its value is rounded to. -/
theorem ofRatio_eq_finite {m : Nat} {e : Int} (h : Canonical m e) (s : Bool)
    (hden : 0 < den) (hvalue : m * 2 ^ place e * den = num * unit) :
    ofRatio s num den = .finite s m e h := by
  have hunits : num * unit = m * (den * 2 ^ place e) := by
    rw [← hvalue, Nat.mul_assoc, Nat.mul_comm den]
  have hp : IsPlace (num * unit) den (place e) := by
    refine ⟨?_, (Nat.eq_zero_or_pos _).imp_right fun hpos => ?_⟩ <;>
      rw [hunits, IsPlace.mul_two_pow]
    · exact Nat.mul_lt_mul_of_pos_right h.lt
        (Nat.mul_pos hden (Nat.two_pow_pos _))
    · exact Nat.mul_le_mul_right _ (h.le_of_place_pos hpos)
  rw [ofRatio_eq_pack hp, hunits,
    roundQuotient_mul (Nat.mul_pos hden (Nat.two_pow_pos _)), pack_of_lt s h.lt,
    sub_place h.le]
  exact dif_pos h

/-- The value of a finite number as an integer, by the shifts with which
it is computed. -/
theorem mul_place_eq_iff {m v : Nat} {e : Int} (he : -1074 ≤ e) :
    m * 2 ^ place e = v * unit ↔ m * 2 ^ e.toNat = v * 2 ^ (-e).toNat := by
  obtain ⟨c, hplace, hunit⟩ := exists_shift he
  rw [← hplace, ← hunit, pow_add, pow_add, ← Nat.mul_assoc, ← Nat.mul_assoc]
  exact Nat.mul_left_inj (Nat.ne_of_gt (Nat.two_pow_pos c))

theorem integer?_eq_some {s : Bool} {m limit : Nat} {e : Int}
    {h : Canonical m e} {i : Int}
    (hi : (finite s m e h).integer? limit = some i) :
    ∃ n : Nat, m * 2 ^ place e = n * unit ∧
      i = if s then -(n : Int) else n := by
  simp only [integer?, Nat.shiftLeft_eq, Nat.one_mul] at hi
  split at hi
  case isFalse => cases hi
  case isTrue hint =>
    refine ⟨_, (mul_place_eq_iff h.le).2 ?_, (Option.some.inj hi).symm⟩
    exact (Nat.div_mul_cancel (Nat.dvd_of_mod_eq_zero hint.1)).symm

/-- An integer that is the value of a number is rounded to this number, or to
the other zero. -/
theorem equal_ofInt {x : Binary64} {limit : Nat} {i : Int}
    (h : x.integer? limit = some i) : (ofInt i).equal x = true := by
  cases x with
  | nan => cases h
  | infinite s => cases h
  | finite s m e hc =>
    obtain ⟨n, hvalue, rfl⟩ := integer?_eq_some h
    have habs : (if s then -(n : Int) else n).natAbs = n := by
      split <;> omega
    rw [ofInt, habs,
      ofRatio_eq_finite hc _ Nat.one_pos (by rw [Nat.mul_one, hvalue]), equal]
    simp only [beq_self_eq_true, Bool.true_and, Bool.or_eq_true, beq_iff_eq]
    rcases Nat.eq_zero_or_pos m with hm | hm
    · exact .inr hm
    · left
      have hpos : 0 < n := Nat.pos_of_ne_zero fun hzero => by
        rw [hzero, Nat.zero_mul] at hvalue
        exact absurd hvalue (Nat.ne_of_gt (Nat.mul_pos hm (Nat.two_pow_pos _)))
      cases s with
      | false => exact decide_eq_false (by simp)
      | true => exact decide_eq_true (by simp [hpos])

/-- The bits of an integer tell its place. -/
theorem IsPlace.lt_of_le {n k p : Nat} (h : IsPlace (n * unit) 1 p)
    (hn : 2 ^ k ≤ n) : k + 1074 < p + 53 := by
  refine (Nat.pow_lt_pow_iff_right Nat.one_lt_two).1 ?_
  calc 2 ^ (k + 1074)
      = 2 ^ k * unit := by rw [pow_add, unit]
    _ ≤ n * unit := Nat.mul_le_mul_right _ hn
    _ < 1 * 2 ^ (p + 53) := h.lt
    _ = 2 ^ (p + 53) := Nat.one_mul _

theorem IsPlace.eq_zero_or_lt {n k p : Nat} (h : IsPlace (n * unit) 1 p)
    (hn : n < 2 ^ k) : p = 0 ∨ p + 52 < k + 1074 := by
  refine h.le.imp_right fun hle =>
    (Nat.pow_lt_pow_iff_right Nat.one_lt_two).1 ?_
  calc 2 ^ (p + 52)
      = 1 * 2 ^ (p + 52) := (Nat.one_mul _).symm
    _ ≤ n * unit := hle
    _ < 2 ^ k * unit := Nat.mul_lt_mul_of_pos_right hn unit_pos
    _ = 2 ^ (k + 1074) := by rw [pow_add, unit]

/-- What an integer is rounded to, from the place of the integer. -/
theorem ofNat_eq_pack {n p : Nat} (hp : IsPlace (n * unit) 1 p) :
    ofNat n = pack false (roundQuotient (n * unit) (2 ^ p)) p := by
  rw [ofNat, ofRatio_eq_pack hp, Nat.one_mul]

/-- The same, from the number of bits. -/
theorem ofNat_of_bits {n q : Nat} (hlow : 2 ^ 52 * 2 ^ q ≤ n)
    (hhigh : n < 2 ^ 53 * 2 ^ q) :
    ofNat n = pack false (roundQuotient n (2 ^ q)) (q + 1074) := by
  have hplace : IsPlace (n * unit) 1 (q + 1074) := by
    refine ⟨?_, .inr ?_⟩ <;>
      rw [IsPlace.mul_two_pow, Nat.one_mul, pow_add, ← unit, ← Nat.mul_assoc]
    · exact Nat.mul_lt_mul_of_pos_right hhigh unit_pos
    · exact Nat.mul_le_mul_right _ hlow
  rw [ofNat_eq_pack hplace, pow_add, ← unit, roundQuotient_scale unit_pos]

/-- A factor that is a power of two moves the place, except in zero. -/
theorem ofNat_mul_two_pow {n p : Nat} (hp : IsPlace (n * unit) 1 p)
    (hpos : 0 < p) (k : Nat) :
    ofNat (n * 2 ^ k) =
      pack false (roundQuotient (n * unit) (2 ^ p)) (p + k) := by
  have hk := Nat.two_pow_pos k
  have hplace : IsPlace (n * 2 ^ k * unit) 1 (p + k) := by
    have hfull := hp.le.resolve_left (Nat.ne_of_gt hpos)
    rw [Nat.mul_right_comm]
    refine ⟨?_, .inr ?_⟩ <;> rw [Nat.add_right_comm, pow_add, ← Nat.mul_assoc]
    · exact Nat.mul_lt_mul_of_pos_right hp.lt hk
    · exact Nat.mul_le_mul_right _ hfull
  rw [ofNat_eq_pack hplace, Nat.mul_right_comm, pow_add, roundQuotient_scale hk]

/-- What an integer is rounded to that is less than half a unit above a number
with all its bits. -/
theorem ofNat_of_units {n m p r : Nat} (hm : m < 2 ^ 53) (hfull : 2 ^ 52 ≤ m)
    (hsum : n * unit = r + m * 2 ^ p) (hhalf : 2 * r < 2 ^ p) :
    ofNat n = pack false m p := by
  have hunit := Nat.two_pow_pos p
  have hplace : IsPlace (n * unit) 1 p := by
    have hlow : 2 ^ 52 * 2 ^ p ≤ m * 2 ^ p := Nat.mul_le_mul_right _ hfull
    have hhigh : (m + 1) * 2 ^ p ≤ 2 ^ 53 * 2 ^ p := Nat.mul_le_mul_right _ hm
    rw [Nat.succ_mul] at hhigh
    rw [hsum]
    generalize m * 2 ^ p = units at *
    refine ⟨?_, .inr ?_⟩ <;> rw [IsPlace.mul_two_pow, Nat.one_mul] <;> omega
  rw [ofNat_eq_pack hplace, hsum]
  simp only [roundQuotient, Nat.add_mul_div_right _ _ hunit,
    Nat.add_mul_mod_self_right, Nat.mod_eq_of_lt (show r < 2 ^ p by omega),
    Nat.div_eq_of_lt (show r < 2 ^ p by omega), hhalf, if_true, Nat.zero_add]

/-- An integer of at most 53 bits is a number. -/
theorem ofNat_of_lt {n : Nat} (hn : n < 2 ^ 53) :
    ∃ (m : Nat) (e : Int) (h : Canonical m e),
      ofNat n = .finite false m e h ∧ m * 2 ^ place e = n * unit := by
  obtain ⟨p, hp⟩ := exists_isPlace n Nat.one_pos
  have hple : p ≤ 1074 := by
    rcases hp.eq_zero_or_lt hn with hp | hp <;> omega
  have hunits : n * unit = n * 2 ^ (1074 - p) * 2 ^ p := by
    rw [Nat.mul_assoc, ← two_pow_split hple, unit]
  have hfull := hp.le_div
  have hlt := hp.div_lt
  rw [Nat.one_mul, hunits, Nat.mul_div_cancel _ (Nat.two_pow_pos p)]
    at hfull hlt
  refine ⟨n * 2 ^ (1074 - p), p - 1074, .of_place hlt (by omega) hfull, ?_, ?_⟩
  · rw [ofNat_eq_pack hp, hunits, roundQuotient_mul (Nat.two_pow_pos p),
      pack_of_lt _ hlt]
    exact dif_pos _
  · rw [place_sub, hunits]

/-- An integer with more bits than the greatest finite number is too large. -/
theorem ofNat_of_le {n : Nat} (hn : 2 ^ 1025 ≤ n) :
    ofNat n = .infinite false := by
  obtain ⟨p, hp⟩ := exists_isPlace n Nat.one_pos
  rw [ofNat_eq_pack hp]
  have := hp.lt_of_le hn
  exact pack_eq_infinite _ (by omega)

end Lossless.Binary64
