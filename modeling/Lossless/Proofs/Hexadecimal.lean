import Lossless.Proofs.Decoding
import Lossless.Proofs.Rounding
import Mathlib.Data.List.TakeWhile

/-!
# Hexadecimal numerals

The number nearest to what hexadecimal digits denote would be rounded once. They
are worked out one by one, with a rounding behind each: as long as a number has
at most 53 bits this is exact, and from there on a digit is less than half a
unit and so is lost. What is read is the number nearest to `cut digits`, where
the digits behind the first that take the number to `2 ^ 53` count as zeros
(`ofHexDigits_eq`). This is another number exactly when those in front are a tie
between two numbers and the even one is below, and one of the lost digits is not
zero (`Slips`). A decimal numeral of the same integer is read correctly
(`numberValue_toString`).
-/

namespace Lossless

namespace Binary64

/-! ### A digit behind a number -/

theorem appendHex_finite {s : Bool} {m v : Nat} {e : Int} (h : Canonical m e)
    (hvalue : m * 2 ^ place e = v * unit) (digit : Nat) :
    (finite s m e h).appendHex digit = ofNat (16 * v + digit) := by
  have hshift := (mul_place_eq_iff h.le).1 hvalue
  have hnum : 16 * m * 2 ^ e.toNat + digit * 2 ^ (-e).toNat =
      (16 * v + digit) * 2 ^ (-e).toNat := by
    rw [Nat.mul_assoc, hshift, Nat.add_mul, Nat.mul_assoc]
  rw [appendHex, ofNat]
  simp only [Nat.shiftLeft_eq]
  rw [hnum, ofRatio_scale (Nat.two_pow_pos _) Nat.one_pos]

/-- A digit is less than half a unit of a number with all its bits in front of
the point, and is lost. -/
theorem appendHex_pack_of_lt {m p digit : Nat} (hm : m < 2 ^ 53)
    (hfull : 2 ^ 52 ≤ m) (hp : 1074 < p) (hdigit : digit < 16) :
    (pack false m p).appendHex digit = pack false m (p + 4) := by
  rcases Nat.lt_or_ge 2045 p with hlarge | hsmall
  · rw [pack_eq_infinite _ hlarge, pack_eq_infinite _ (by omega)]
    rfl
  · have hunit : 2 ^ p = 2 ^ (p - 1074) * unit :=
      two_pow_split (Nat.le_of_lt hp)
    rw [pack_of_lt _ hm, ofParts_of_place _ hm hsmall (.inr hfull),
      appendHex_finite (v := m * 2 ^ (p - 1074)) _ (by rw [place_sub, hunit,
        Nat.mul_assoc])]
    have hsum : (16 * (m * 2 ^ (p - 1074)) + digit) * unit =
        digit * unit + m * 2 ^ (p + 4) := by
      rw [Nat.add_mul, Nat.add_comm, Nat.mul_assoc, Nat.mul_assoc, ← hunit,
        Nat.mul_left_comm, Nat.mul_comm 16,
        show 16 = 2 ^ 4 from rfl, ← pow_add]
    refine ofNat_of_units hm hfull hsum ?_
    calc 2 * (digit * unit)
        = 2 * digit * unit := (Nat.mul_assoc _ _ _).symm
      _ < 2 ^ 5 * unit := Nat.mul_lt_mul_of_pos_right (by omega) unit_pos
      _ = 2 ^ (5 + 1074) := by rw [pow_add, unit]
      _ ≤ 2 ^ (p + 4) := two_pow_le (by omega)

theorem appendHex_pack {m p digit : Nat} (hm : m ≤ 2 ^ 53) (hfull : 2 ^ 52 ≤ m)
    (hp : 1074 < p) (hdigit : digit < 16) :
    (pack false m p).appendHex digit = pack false m (p + 4) := by
  rcases Nat.lt_or_eq_of_le hm with hlt | rfl
  · exact appendHex_pack_of_lt hlt hfull hp hdigit
  · -- with the carry the significand has 53 bits again
    rw [pack_carry, pack_carry, appendHex_pack_of_lt (by decide) (Nat.le_refl _)
      (Nat.lt_succ_of_lt hp) hdigit, Nat.add_right_comm]

/-- What is left of a number when a digit is put behind it: a digit behind more
than 53 bits is lost. -/
def cutStep (n digit : Nat) : Nat :=
  if n < 2 ^ 53 then 16 * n + digit else 16 * n

theorem appendHex_ofNat {digit : Nat} (hdigit : digit < 16) (n : Nat) :
    (ofNat n).appendHex digit = ofNat (cutStep n digit) := by
  rw [cutStep]
  split
  case isTrue hn =>
    obtain ⟨m, e, h, heq, hvalue⟩ := ofNat_of_lt hn
    rw [heq, appendHex_finite h hvalue]
  case isFalse hn =>
    obtain ⟨p, hp⟩ := exists_isPlace n Nat.one_pos
    have hpos := hp.lt_of_le (Nat.le_of_not_lt hn)
    have hround := hp.roundQuotient_le
    have hfull := hp.le_roundQuotient.resolve_left (by omega)
    rw [Nat.one_mul] at hround hfull
    rw [ofNat_eq_pack hp, appendHex_pack hround hfull (by omega) hdigit,
      Nat.mul_comm 16,
      show 16 = 2 ^ 4 from rfl, ofNat_mul_two_pow hp (by omega)]

/-! ### One rounding or two -/

/-- A tie whose even side is below, with digits behind it that count. -/
def Slip (a h b : Nat) : Prop := a % (2 * h) = h ∧ a / (2 * h) % 2 = 0 ∧ 0 < b

theorem Slip.roundQuotient_eq {a h b : Nat} (hslip : Slip a h b) :
    roundQuotient a (2 * h) = a / (2 * h) := by
  obtain ⟨htie, heven, -⟩ := hslip
  simp only [roundQuotient, htie, heven, Nat.lt_irrefl, if_false, Nat.add_zero]

/-- Digits behind an integer change what it is rounded to only if they slip. -/
theorem roundQuotient_append {a h b c : Nat} (hb : b < c) :
    (Slip a h b →
      roundQuotient (a * c + b) (2 * h * c) = roundQuotient a (2 * h) + 1) ∧
      (¬Slip a h b →
        roundQuotient (a * c + b) (2 * h * c) = roundQuotient a (2 * h)) := by
  have hc := Nat.zero_lt_of_lt hb
  have hdiv : (a * c + b) / (2 * h * c) = a / (2 * h) := by
    rw [Nat.mul_comm (2 * h), ← Nat.div_div_eq_div_mul, Nat.add_comm,
      Nat.add_mul_div_right _ _ hc, Nat.div_eq_of_lt hb, Nat.zero_add]
  have hmod : (a * c + b) % (2 * h * c) = a % (2 * h) * c + b := by
    have hall := Nat.div_add_mod (a * c + b) (2 * h * c)
    have hfront : 2 * h * (a / (2 * h)) * c + a % (2 * h) * c = a * c := by
      rw [← Nat.add_mul, Nat.div_add_mod]
    rw [hdiv, Nat.mul_right_comm] at hall
    omega
  simp only [roundQuotient, hdiv, hmod, Slip]
  rw [Nat.mul_assoc]
  clear hdiv hmod
  generalize a / (2 * h) = q
  generalize a % (2 * h) = r
  rcases Nat.lt_trichotomy r h with hr | rfl | hr
  · have hlow : (r + 1) * c ≤ h * c := Nat.mul_le_mul_right c hr
    rw [Nat.succ_mul] at hlow
    rw [if_pos (by omega), if_pos (by omega)]
    exact ⟨fun hslip => absurd hslip.1 (Nat.ne_of_lt hr), fun _ => rfl⟩
  · -- halfway, where the digits decide
    rw [if_neg (by omega), if_neg (Nat.lt_irrefl _), if_neg (Nat.lt_irrefl _)]
    constructor <;> intro hslip <;> split <;> omega
  · have hhigh : (h + 1) * c ≤ r * c := Nat.mul_le_mul_right c hr
    rw [Nat.succ_mul] at hhigh
    rw [if_neg (by omega), if_pos (by omega), if_neg (by omega),
      if_pos (by omega)]
    exact ⟨fun hslip => absurd hslip.1 (Nat.ne_of_gt hr), fun _ => rfl⟩

/-- The place of an integer of 54 bits with zeros and digits behind it. -/
theorem ofNat_append_eq_pack {n j b k : Nat} (hlow : 2 ^ 53 * 2 ^ j ≤ n)
    (hhigh : n < 2 ^ 54 * 2 ^ j) (hb : b < 16 ^ k) :
    ofNat (n * 16 ^ k + b) =
      pack false (roundQuotient (n * 16 ^ k + b) (2 * 2 ^ j * 16 ^ k))
        (j + 1 + 4 * k + 1074) := by
  have hunit : 2 ^ (j + 1 + 4 * k) = 2 * 2 ^ j * 16 ^ k := by
    rw [pow_add, pow_succ, pow_mul, Nat.mul_comm 2]
    rfl
  have hlow' : 2 ^ 53 * 2 ^ j * 16 ^ k ≤ n * 16 ^ k :=
    Nat.mul_le_mul_right _ hlow
  have hhigh' : (n + 1) * 16 ^ k ≤ 2 ^ 54 * 2 ^ j * 16 ^ k :=
    Nat.mul_le_mul_right _ hhigh
  rw [Nat.mul_assoc] at hlow'
  rw [Nat.succ_mul, Nat.mul_assoc] at hhigh'
  rw [← hunit]
  refine ofNat_of_bits ?_ ?_ <;> rw [hunit, Nat.mul_assoc 2] <;> omega

/-- An integer of 54 bits and up to three zeros behind them, and what it is with
digits put behind: it is rounded to another number exactly if they slip. This is
never the difference between a finite number and an infinite one. -/
theorem ofNat_append {n j b k : Nat} (hlow : 2 ^ 53 * 2 ^ j ≤ n)
    (hhigh : n < 2 ^ 54 * 2 ^ j) (hb : b < 16 ^ k) :
    (ofNat (n * 16 ^ k)).isFinite = (ofNat (n * 16 ^ k + b)).isFinite ∧
      (ofNat (n * 16 ^ k) ≠ ofNat (n * 16 ^ k + b) ↔
        (ofNat (n * 16 ^ k + b)).isFinite = true ∧ Slip n (2 ^ j) b) := by
  have hc : 0 < 16 ^ k := Nat.zero_lt_of_lt hb
  have hcut := ofNat_append_eq_pack hlow hhigh hc
  rw [Nat.add_zero, roundQuotient_scale hc] at hcut
  obtain ⟨hslips, hkeeps⟩ := roundQuotient_append (a := n) (h := 2 ^ j) hb
  rw [hcut, ofNat_append_eq_pack hlow hhigh hb]
  by_cases hslip : Slip n (2 ^ j) b
  · rw [hslips hslip, hslip.roundQuotient_eq]
    have hunit := Nat.mul_pos Nat.two_pos (Nat.two_pow_pos j)
    have hfull : 2 ^ 52 ≤ n / (2 * 2 ^ j) :=
      (Nat.le_div_iff_mul_le hunit).2 (by omega)
    have hlt : n / (2 * 2 ^ j) < 2 ^ 53 :=
      (Nat.div_lt_iff_lt_mul hunit).2 (by omega)
    have heven := hslip.2.1
    generalize n / (2 * 2 ^ j) = m at *
    generalize j + 1 + 4 * k + 1074 = p
    -- an even significand has another one above it
    have hnext : m + 1 < 2 ^ 53 := by omega
    rw [isFinite_pack _ hlt (.inr hfull),
      isFinite_pack _ hnext (.inr (by omega)), decide_eq_true_eq]
    refine ⟨rfl, fun hne => ⟨Nat.le_of_not_lt fun hlarge => hne ?_, hslip⟩,
      fun ⟨hsmall, _⟩ heq => ?_⟩
    · rw [pack_eq_infinite _ hlarge, pack_eq_infinite _ hlarge]
    · have hmag := congrArg magnitude heq
      rw [(pack_spec false (Nat.le_of_lt hlt) hsmall (.inr hfull)).1,
        (pack_spec false (Nat.le_of_lt hnext) hsmall (.inr (by omega))).1]
        at hmag
      exact absurd (Nat.eq_of_mul_eq_mul_right (Nat.two_pow_pos p) hmag)
        (by omega)
  · rw [hkeeps hslip]
    exact ⟨rfl, fun hne => absurd rfl hne, fun hslip' => absurd hslip'.2 hslip⟩

end Binary64

namespace Literal

open Lexer (isHexDigit)
open Binary64

/-! ### What the digits come to -/

/-- What the digits denote if those behind the first that take it to `2 ^ 53` or
more count as zeros. -/
def cut (digits : List Char) : Nat :=
  digits.foldl (fun n d => cutStep n (hexValue d)) 0

/-- The digits in front are halfway between two numbers, the even one is below,
and a digit behind them counts. -/
def Slips (digits : List Char) : Prop :=
  ∃ front back m j, digits = front ++ back ∧
    hexNumber front = (2 * m + 1) * 2 ^ j ∧ j < 4 ∧ m % 2 = 0 ∧
    2 ^ 52 ≤ m ∧ m < 2 ^ 53 ∧ 0 < hexNumber back

variable {digits : List Char}

theorem cut_append_singleton (ds : List Char) (d : Char) :
    cut (ds ++ [d]) = cutStep (cut ds) (hexValue d) := by
  rw [cut, List.foldl_append]
  rfl

theorem ofHexDigits_eq (h : ∀ d ∈ digits, isHexDigit d = true) :
    ofHexDigits digits = ofNat (cut digits) := by
  rw [ofHexDigits, List.filter_eq_self.2 h]
  induction digits using List.reverseRecOn with
  | nil => rfl
  | append_singleton ds d ih =>
    rw [List.foldl_append, ih fun x hx => h x (List.mem_append_left _ hx),
      cut_append_singleton]
    exact appendHex_ofNat (hexValue_lt (h d (by simp))) _

theorem hexNumber_append (front back : List Char) :
    hexNumber (front ++ back) =
      hexNumber front * 16 ^ back.length + hexNumber back := by
  induction back using List.reverseRecOn with
  | nil => simp [hexNumber]
  | append_singleton ds d ih =>
    rw [← List.append_assoc, hexNumber_append_singleton, ih,
      hexNumber_append_singleton, List.length_append, List.length_singleton,
      pow_succ, Nat.add_mul, Nat.mul_assoc, Nat.add_assoc]

/-- Up to the digit that takes the number to `2 ^ 53` nothing is cut. -/
theorem cut_of_lt (h : ∀ d ∈ digits, isHexDigit d = true)
    (hlt : hexNumber digits < 2 ^ 57) : cut digits = hexNumber digits := by
  induction digits using List.reverseRecOn with
  | nil => rfl
  | append_singleton ds d ih =>
    rw [hexNumber_append_singleton] at hlt ⊢
    rw [cut_append_singleton, ih (fun x hx => h x (List.mem_append_left _ hx))
      (by omega), cutStep, if_pos (by omega), Nat.mul_comm]

theorem foldl_cutStep {n : Nat} (hn : 2 ^ 53 ≤ n) (back : List Char) :
    back.foldl (fun n d => cutStep n (hexValue d)) n =
      n * 16 ^ back.length := by
  induction back generalizing n with
  | nil => simp
  | cons d ds ih =>
    rw [List.foldl_cons, cutStep, if_neg (Nat.not_lt.2 hn), ih (by omega),
      List.length_cons, pow_succ, Nat.mul_comm 16, Nat.mul_assoc,
      Nat.mul_comm (16 ^ _)]

/-- Behind it all digits are. -/
theorem cut_append {front back : List Char}
    (h : ∀ d ∈ front, isHexDigit d = true) (hlt : hexNumber front < 2 ^ 57)
    (hle : 2 ^ 53 ≤ hexNumber front) :
    cut (front ++ back) = hexNumber front * 16 ^ back.length := by
  rw [cut, List.foldl_append]
  change List.foldl _ (cut front) back = _
  rw [cut_of_lt h hlt, foldl_cutStep hle]

/-- Either all digits count, or some of them in front take the number to
`2 ^ 53`, but not beyond a further digit. -/
theorem exists_front (h : ∀ d ∈ digits, isHexDigit d = true) :
    hexNumber digits < 2 ^ 53 ∨
      ∃ front back, digits = front ++ back ∧
        2 ^ 53 ≤ hexNumber front ∧ hexNumber front < 2 ^ 57 := by
  induction digits using List.reverseRecOn with
  | nil => exact .inl (by decide)
  | append_singleton ds d ih =>
    have hd := hexValue_lt (h d (by simp))
    rcases ih fun x hx => h x (List.mem_append_left _ hx) with hlt |
      ⟨front, back, rfl, hle, hlt⟩
    · refine (Nat.lt_or_ge _ _).imp_right fun hle =>
        ⟨ds ++ [d], [], (List.append_nil _).symm, hle, ?_⟩
      rw [hexNumber_append_singleton]
      omega
    · exact .inr ⟨front, back ++ [d], List.append_assoc .., hle, hlt⟩

/-- Between numbers of 53 bits and of 57 there are four lengths. -/
theorem exists_bits {n : Nat} (hle : 2 ^ 53 ≤ n) (hlt : n < 2 ^ 57) :
    ∃ j, j < 4 ∧ 2 ^ 53 * 2 ^ j ≤ n ∧ n < 2 ^ 54 * 2 ^ j := by
  rcases Nat.lt_or_ge n (2 ^ 54) with h | h
  · exact ⟨0, by decide, by omega, by omega⟩
  · rcases Nat.lt_or_ge n (2 ^ 55) with h | h
    · exact ⟨1, by decide, by omega, by omega⟩
    · rcases Nat.lt_or_ge n (2 ^ 56) with h | h
      · exact ⟨2, by decide, by omega, by omega⟩
      · exact ⟨3, by decide, by omega, by omega⟩

/-- An integer halfway between two multiples is an odd number of halves. -/
theorem slip_iff {n h b : Nat} (hpos : 0 < h) :
    Slip n h b ↔ ∃ m, n = (2 * m + 1) * h ∧ m % 2 = 0 ∧ 0 < b := by
  have hsum (m : Nat) : (2 * m + 1) * h = h + m * (2 * h) := by
    rw [Nat.add_mul, Nat.one_mul, Nat.add_comm, Nat.mul_left_comm,
      Nat.mul_assoc]
  refine ⟨fun ⟨htie, heven, hb⟩ => ⟨n / (2 * h), ?_, heven, hb⟩, ?_⟩
  · have hdiv := Nat.div_add_mod' n (2 * h)
    rw [hsum]
    omega
  · rintro ⟨m, rfl, heven, hb⟩
    rw [Slip, hsum, Nat.add_mul_mod_self_right, Nat.mod_eq_of_lt (by omega),
      Nat.add_mul_div_right _ _ (by omega), Nat.div_eq_of_lt (by omega),
      Nat.zero_add]
    exact ⟨rfl, heven, hb⟩

/-- What is read of digits in front that have the length of a tie, and of
those behind them. -/
theorem ofNat_cut_append {front back : List Char}
    {j : Nat} (h : ∀ d ∈ front ++ back, isHexDigit d = true)
    (hj : j < 4) (hlow : 2 ^ 53 * 2 ^ j ≤ hexNumber front)
    (hhigh : hexNumber front < 2 ^ 54 * 2 ^ j) :
    (ofNat (cut (front ++ back))).isFinite =
        (ofNat (hexNumber (front ++ back))).isFinite ∧
      (ofNat (cut (front ++ back)) ≠ ofNat (hexNumber (front ++ back)) ↔
        (ofNat (hexNumber (front ++ back))).isFinite = true ∧
          Slip (hexNumber front) (2 ^ j) (hexNumber back)) := by
  have hfront : ∀ d ∈ front, isHexDigit d = true :=
    fun d hd => h d (List.mem_append_left _ hd)
  have hback : hexNumber back < 16 ^ back.length :=
    hexNumber_lt fun d hd => h d (List.mem_append_right _ hd)
  have hpow : 2 ^ j ≤ 2 ^ 3 := two_pow_le (by omega)
  have hone : 1 ≤ 2 ^ j := Nat.two_pow_pos j
  rw [cut_append hfront (by omega) (by omega), hexNumber_append]
  exact ofNat_append hlow hhigh hback

/-- What is read is finite if the nearest number is, and differs from it exactly
if the digits slip. -/
theorem ofNat_cut (h : ∀ d ∈ digits, isHexDigit d = true) :
    (ofNat (cut digits)).isFinite = (ofNat (hexNumber digits)).isFinite ∧
      (ofNat (cut digits) ≠ ofNat (hexNumber digits) ↔
        (ofNat (hexNumber digits)).isFinite = true ∧ Slips digits) := by
  rcases exists_front h with hlt | ⟨front, back, rfl, hle, hlt⟩
  · rw [cut_of_lt h (by omega)]
    refine ⟨rfl, fun hne => absurd rfl hne,
      fun ⟨_, front, back, m, j, hdigits, hfront, _, _, hfull, _, _⟩ => ?_⟩
    have hle : 2 * m + 1 ≤ hexNumber front :=
      hfront ▸ Nat.le_mul_of_pos_right _ (Nat.two_pow_pos j)
    have hmore : hexNumber front ≤ hexNumber digits := by
      rw [hdigits, hexNumber_append]
      exact Nat.le_add_right_of_le
        (Nat.le_mul_of_pos_right _ (Nat.pow_pos (by decide)))
    omega
  · obtain ⟨j, hj, hlow, hhigh⟩ := exists_bits hle hlt
    obtain ⟨hfinite, hiff⟩ := ofNat_cut_append h hj hlow hhigh
    refine ⟨hfinite, fun hne => ?_, ?_⟩
    · obtain ⟨hfin, hslip⟩ := hiff.1 hne
      obtain ⟨m, hm, heven, hb⟩ := (slip_iff (Nat.two_pow_pos j)).1 hslip
      have hpos := Nat.two_pow_pos j
      rw [hm] at hlow hhigh
      have := Nat.le_of_mul_le_mul_right hlow hpos
      have := Nat.lt_of_mul_lt_mul_right hhigh
      exact ⟨hfin, front, back, m, j, rfl, hm, hj,
        heven, by omega, by omega, hb⟩
    · rintro ⟨hfin, front, back, m, j, hdigits, hm, hj, heven, hfull, hlt, hb⟩
      have hlow : 2 ^ 53 * 2 ^ j ≤ hexNumber front :=
        hm ▸ Nat.mul_le_mul_right _ (by omega)
      have hhigh : hexNumber front < 2 ^ 54 * 2 ^ j :=
        hm ▸ Nat.mul_lt_mul_of_pos_right (by omega) (Nat.two_pow_pos j)
      rw [hdigits] at h hfin ⊢
      exact (ofNat_cut_append h hj hlow hhigh).2.2 ⟨hfin,
        (slip_iff (Nat.two_pow_pos j)).2 ⟨m, hm, heven, hb⟩⟩

/-! ### The value of a numeral -/

theorem numberValue_hexadecimal {x : Char} (hx : x = 'x' ∨ x = 'X')
    (hne : digits ≠ []) :
    numberValue (String.ofList ('0' :: x :: digits)) =
      .ok (ofHexDigits digits) := by
  rw [numberValue, String.toList_ofList]
  rcases hx with rfl | rfl <;> simp [hne]

theorem read?_of_digits {ds : List Char} (hne : ds ≠ [])
    (h : ∀ d ∈ ds, d.isDigit = true) :
    Decimal.read? ds = some ⟨Decimal.ofDigits ds, 0⟩ := by
  rw [Decimal.read?]
  simp only [List.takeWhile_eq_self_iff.2 h, List.dropWhile_eq_nil_iff.2 h]
  simp [hne, Decimal.exponentPart?]

/-- Beyond the range of binary64 the number is not worked out, but it
would be infinite. -/
theorem toBinary64_of_integer (n : Nat) :
    Decimal.toBinary64 ⟨n, 0⟩ false = ofNat n := by
  simp only [Decimal.toBinary64]
  split
  case isTrue h =>
    obtain rfl : n = 0 := h.resolve_right (by omega)
    rfl
  case isFalse h =>
    have hn : n ≠ 0 := fun hzero => h (.inl hzero)
    split
    case isTrue hbits =>
      refine (ofNat_of_le
        (Nat.le_trans (two_pow_le ?_) (Nat.log2_self_le hn))).symm
      omega
    case isFalse =>
      change ofRatio false (n * 1) 1 = ofNat n
      rw [Nat.mul_one, ofNat]

/-- A plain run of decimal digits, without a zero in front of others, denotes an
integer that is rounded once. -/
theorem numberValue_decimal {ds : List Char} (hne : ds ≠ [])
    (h : ∀ d ∈ ds, d.isDigit = true)
    (hzero : ds.head? = some '0' → ds = ['0']) :
    numberValue (String.ofList ds) = .ok (ofNat (Decimal.ofDigits ds)) := by
  have hread : numberValue.decimal (String.ofList ds) ds =
      .ok (ofNat (Decimal.ofDigits ds)) := by
    rw [numberValue.decimal, read?_of_digits hne h]
    exact congrArg _ (toBinary64_of_integer _)
  rw [numberValue, String.toList_ofList]
  split
  · exact absurd (hzero rfl) (by simp)
  · exact absurd (hzero rfl) (by simp)
  · split
    · exact absurd (hzero rfl) (by simp)
    · exact hread

/-- The decimal numeral of a positive integer does not begin with a zero. -/
theorem head?_toDigits {n : Nat} (hn : 0 < n) :
    (Nat.toDigits 10 n).head? ≠ some '0' := by
  induction n using Nat.strongRecOn with
  | ind n ih =>
    rcases Nat.lt_or_ge n 10 with hlt | hge
    · rw [Nat.toDigits_of_lt_base hlt]
      have hdigit : ∀ k < 10, 0 < k → Nat.digitChar k ≠ '0' := by decide
      exact fun h => hdigit n hlt hn (Option.some.inj h)
    · rw [Nat.toDigits_of_base_le (by decide) hge,
        List.head?_append_of_ne_nil _ Nat.toDigits_ne_nil]
      exact ih (n / 10) (by omega) (by omega)

theorem numberValue_toString (n : Nat) :
    numberValue (toString n) = .ok (ofNat n) := by
  have hvalue : Decimal.ofDigits (Nat.toDigits 10 n) = n := by
    rw [Decimal.ofDigits_eq_foldl]
    exact Nat.ofDigitChars_toDigits (by decide) (by decide)
  have hzero : (Nat.toDigits 10 n).head? = some '0' →
      Nat.toDigits 10 n = ['0'] := fun hhead => by
    rcases Nat.eq_zero_or_pos n with rfl | hn
    · exact Nat.toDigits_zero 10
    · exact absurd hhead (head?_toDigits hn)
  have hdigits : ∀ d ∈ Nat.toDigits 10 n, d.isDigit = true :=
    fun _ hd => Nat.isDigit_of_mem_toDigits (by decide) (by decide) hd
  rw [Nat.toString_eq_ofList_toDigits,
    numberValue_decimal Nat.toDigits_ne_nil hdigits hzero, hvalue]

/-- What a numeral denotes is its value if it is finite. -/
theorem value_of_numberValue {raw : String} {x : Binary64}
    (h : numberValue raw = .ok x) :
    value .number raw =
      if x.isFinite then .ok (.number x) else .error (.outOfRange raw) := by
  rw [value, number, h]
  change Except.map _ (if x.isFinite then _ else _) = _
  split <;> rfl

/-- What hexadecimal digits are read as: `v` is the number nearest to
what they denote, and `w` is read. The decimal numeral of the same
integer is read as `v`. -/
structure IsHexadecimal (digits : List Char) (raw : String) (v w : Binary64) :
    Prop where
  nearest_iff : ∀ y, Nearest (hexNumber digits) 1 y ↔ y = v
  nearest_cut_iff : ∀ y, Nearest (cut digits) 1 y ↔ y = w
  ne_iff : w ≠ v ↔ v.isFinite = true ∧ Slips digits
  value_eq : value .number raw =
    if v.isFinite then .ok (.number w) else .error (.outOfRange raw)
  value_decimal_eq : value .number (toString (hexNumber digits)) =
    if v.isFinite then .ok (.number v)
      else .error (.outOfRange (toString (hexNumber digits)))

/-- A hexadecimal numeral is refused exactly if the integer is rounded to an
infinite number, and is otherwise read as the number nearest to this integer
unless its digits slip. -/
theorem exists_isHexadecimal {x : Char} (hx : x = 'x' ∨ x = 'X')
    (hne : digits ≠ []) (h : ∀ d ∈ digits, isHexDigit d = true) :
    ∃ v w, IsHexadecimal digits (String.ofList ('0' :: x :: digits)) v w := by
  obtain ⟨hfinite, hslips⟩ := ofNat_cut h
  refine ⟨ofNat (hexNumber digits), ofNat (cut digits),
    fun y => nearest_iff Nat.one_pos, fun y => nearest_iff Nat.one_pos, hslips,
    ?_, value_of_numberValue (numberValue_toString _)⟩
  rw [value_of_numberValue (numberValue_hexadecimal hx hne),
    ofHexDigits_eq h, hfinite]

theorem exists_isHexadecimal_sample :
    ∃ v w, IsHexadecimal "1fffffffffffff80".toList
      (String.ofList ('0' :: 'X' :: "1fffffffffffff80".toList)) v w :=
  exists_isHexadecimal (.inr rfl) (List.cons_ne_nil _ _)
    (List.all_eq_true.1 (by decide +kernel))

/-- Of `2 ^ 57 + 17` the first fourteen digits are halfway between two numbers,
and the last digit would have decided for the upper one. -/
theorem value_eq_of_slip :
    value .number "0x200000000000011" = .ok (.number (ofNat (2 ^ 57))) ∧
      value .number "144115188075855889" = .ok (.number (ofNat (2 ^ 57 + 32))) ∧
      Nearest (hexNumber "200000000000011".toList) 1 (ofNat (2 ^ 57 + 32)) ∧
      ofNat (2 ^ 57) ≠ ofNat (2 ^ 57 + 32) := by
  refine ⟨by decide +kernel, by decide +kernel,
    (nearest_iff Nat.one_pos).2 ?_, by decide +kernel⟩
  decide +kernel

end Literal

end Lossless
