import Mathlib.Algebra.Order.Round
import Mathlib.Data.Int.Log
import Mathlib.Data.Prod.Lex
import Mathlib.Data.Rat.Floor
import Mathlib.Tactic.NormNum
import Mathlib.Tactic.Ring

/-!
# Binary64 numbers

The numbers of the IEEE 754 format binary64 as rationals, with the infinities and a number that
is not one.  The two zeros are one number here.  A rational is rounded to the nearest number of
the format, ties to the even significand (`ofRat`).  A rational with a significand of at most 53
bits is a number of the format and is not changed by rounding (`roundRat_eq_self`).
-/

/-- A binary64 number. -/
inductive Binary64
  /-- A finite number. -/
  | finite (q : ℚ)
  /-- An infinity and whether it is negative. -/
  | inf (neg : Bool)
  /-- Not a number. -/
  | nan
deriving DecidableEq, Repr

namespace Binary64

/-- The nearest integer, the even one of two. -/
def roundEven (q : ℚ) : ℤ :=
  if q - ⌊q⌋ < 1 / 2 then ⌊q⌋
  else if 1 / 2 < q - ⌊q⌋ then ⌊q⌋ + 1
  else if ⌊q⌋ % 2 = 0 then ⌊q⌋
  else ⌊q⌋ + 1

/-- The exponent of the unit in the last place of a rational: the significand has 53 bits, and
the exponent is not below that of the subnormal numbers. -/
def ulpExponent (q : ℚ) : ℤ := max (Int.log 2 |q| - 52) (-1074)

/-- A rational rounded to 53 bits. -/
def roundRat (q : ℚ) : ℚ := roundEven (q / 2 ^ ulpExponent q) * 2 ^ ulpExponent q

/-- The number nearest to a rational, an infinity when it is out of range. -/
def ofRat (q : ℚ) : Binary64 :=
  if 2 ^ 1024 ≤ |roundRat q| then inf (decide (q < 0)) else finite (roundRat q)

/-- Whether a number is positive. -/
def Positive : Binary64 → Prop
  | finite q => 0 < q
  | inf neg => neg = false
  | nan => False

instance decidablePositive : DecidablePred Positive
  | finite q => inferInstanceAs (Decidable (0 < q))
  | inf neg => inferInstanceAs (Decidable (neg = false))
  | nan => inferInstanceAs (Decidable False)

/-- Whether a number is zero or negative. -/
def NonPositive : Binary64 → Prop
  | finite q => q ≤ 0
  | inf neg => neg = true
  | nan => False

instance decidableNonPositive : DecidablePred NonPositive
  | finite q => inferInstanceAs (Decidable (q ≤ 0))
  | inf neg => inferInstanceAs (Decidable (neg = true))
  | nan => inferInstanceAs (Decidable False)

/-- A number is not both positive and not. -/
theorem NonPositive.not_positive {x : Binary64} (h : x.NonPositive) :
  ¬ x.Positive
  := by
  cases x with
  | finite q => apply not_lt.mpr h
  | inf neg =>
    obtain rfl : neg = true := h
    apply Bool.noConfusion
  | nan => cases h

/-- The comparisons with zero miss no number. -/
theorem ne_nan_iff {x : Binary64} :
  x ≠ .nan ↔ x.NonPositive ∨ x.Positive
  := by
  cases x with
  | finite q =>
    constructor
    · intro _
      apply le_or_gt q 0
    · rintro - ⟨⟩
  | inf neg => cases neg <;> decide
  | nan => decide

/-- The product with a positive rational. -/
def scale (m : ℚ) : Binary64 → Binary64
  | finite q => ofRat (q * m)
  | inf neg => inf neg
  | nan => nan

/-- The conversion to a signed 64-bit integer, toward zero.  A number that is out of range gives
the smallest integer. -/
def toInt64 : Binary64 → ℤ
  | finite q =>
    if -2 ^ 63 ≤ q.num.tdiv q.den ∧ q.num.tdiv q.den < 2 ^ 63 then q.num.tdiv q.den else -2 ^ 63
  | _ => -2 ^ 63

/-- The place of a number in the order of the numbers.  What is not a number comes last. -/
def rank : Binary64 → ℤ ×ₗ ℚ
  | inf true => toLex (-1, 0)
  | finite q => toLex (0, q)
  | inf false => toLex (1, 0)
  | nan => toLex (2, 0)

/-- Numbers in the same place are equal. -/
theorem rank_injective :
  Function.Injective rank
  := by
  intro x y h
  match x, y, h with
  | inf true, inf true, _ => rfl
  | inf false, inf false, _ => rfl
  | nan, nan, _ => rfl
  | finite q, finite r, h =>
    have hq : q = r := (Prod.mk.inj (toLex_inj.mp h)).2
    rw [hq]

/-- Rounding gives a number. -/
theorem ofRat_ne_nan (q : ℚ) :
  ofRat q ≠ nan
  := by
  rw [ofRat]
  split_ifs <;> simp

/-! ## Exact numbers -/

/-- Integers are not rounded. -/
theorem roundEven_intCast (n : ℤ) :
  roundEven n = n
  := by
  rw [roundEven, Int.floor_intCast, sub_self, if_pos (by norm_num)]

/-- A multiple of the last place is not rounded. -/
theorem roundRat_of_multiple {q : ℚ} {n : ℤ} (h : q = n * 2 ^ ulpExponent q) :
  roundRat q = q
  := by
  have hpos : (2 : ℚ) ^ ulpExponent q ≠ 0 := zpow_ne_zero _ two_ne_zero
  have hdiv : q / 2 ^ ulpExponent q = n := by
    rw [div_eq_iff hpos]
    exact h
  rw [roundRat, hdiv, roundEven_intCast]
  exact h.symm

/-- When the unit of rounding is above the last place of a significand of at most 53 bits, the
significand is the power of two. -/
theorem abs_eq_of_lt_ulpExponent {m k : ℤ} (hm : |m| ≤ 2 ^ 53) (hm0 : m ≠ 0) (hk : -1074 ≤ k)
    (h : k < ulpExponent ((m : ℚ) * 2 ^ k)) :
  |m| = 2 ^ 53 ∧ ulpExponent ((m : ℚ) * 2 ^ k) = k + 1
  := by
  have hpow : (0 : ℚ) < 2 ^ k := zpow_pos two_pos k
  have habs : |(m : ℚ) * 2 ^ k| = (|m| : ℤ) * 2 ^ k := by
    rw [abs_mul, abs_of_pos hpow, Int.cast_abs]
  have hpos : (0 : ℚ) < |(m : ℚ) * 2 ^ k| := by
    apply abs_pos.mpr
    apply mul_ne_zero (Int.cast_ne_zero.mpr hm0) hpow.ne'
  have hlog : k + 53 ≤ Int.log 2 |(m : ℚ) * 2 ^ k| := by
    rw [ulpExponent] at h
    rcases lt_max_iff.mp h with h | h
    · omega
    · omega
  have hle : (2 : ℚ) ^ (k + 53) ≤ (|m| : ℤ) * 2 ^ k := by
    rw [← habs]
    calc (2 : ℚ) ^ (k + 53) ≤ 2 ^ Int.log 2 |(m : ℚ) * 2 ^ k| :=
          zpow_le_zpow_right₀ one_le_two hlog
      _ ≤ |(m : ℚ) * 2 ^ k| := Int.zpow_log_le_self one_lt_two hpos
  have hge : 2 ^ 53 ≤ |m| := by
    rw [zpow_add₀ two_ne_zero, mul_comm] at hle
    have hcast := le_of_mul_le_mul_right hle hpow
    exact_mod_cast hcast
  have heq : |m| = 2 ^ 53 := le_antisymm hm hge
  have hlogeq : Int.log 2 |(m : ℚ) * 2 ^ k| = k + 53 := by
    have hval : |(m : ℚ) * 2 ^ k| = (2 : ℕ) ^ (k + 53) := by
      rw [habs, heq, Nat.cast_ofNat, zpow_add₀ two_ne_zero]
      push_cast
      ring
    rw [hval, Int.log_zpow one_lt_two]
  constructor
  · apply heq
  · rw [ulpExponent, hlogeq]
    omega

/-- A rational with a significand of at most 53 bits is not rounded. -/
theorem roundRat_eq_self {m k : ℤ} (hm : |m| ≤ 2 ^ 53) (hk : -1074 ≤ k) :
  roundRat (m * 2 ^ k) = m * 2 ^ k
  := by
  by_cases hm0 : m = 0
  · apply roundRat_of_multiple (n := 0)
    rw [hm0, Int.cast_zero, zero_mul, zero_mul]
  rcases le_or_gt (ulpExponent ((m : ℚ) * 2 ^ k)) k with hle | hgt
  · -- the last place of the significand is at or above the unit of rounding
    obtain ⟨j, hj⟩ := Int.le.dest hle
    apply roundRat_of_multiple (n := m * 2 ^ j)
    rw [Int.cast_mul, Int.cast_pow, Int.cast_ofNat, mul_assoc, ← zpow_natCast,
      ← zpow_add₀ two_ne_zero, add_comm, hj]
  · obtain ⟨habs, hulp⟩ := abs_eq_of_lt_ulpExponent hm hm0 hk hgt
    obtain ⟨n, hn⟩ : ∃ n, m = 2 * n := by
      rcases abs_choice m with h | h
      · exact ⟨2 ^ 52, by omega⟩
      · exact ⟨-2 ^ 52, by omega⟩
    apply roundRat_of_multiple (n := n)
    rw [hulp, hn, zpow_add₀ two_ne_zero, zpow_one]
    push_cast
    ring

/-- A rational that is not rounded has a significand of at most 53 bits. -/
theorem exists_significand {q : ℚ} (h : roundRat q = q) :
  ∃ m k : ℤ, |m| ≤ 2 ^ 53 ∧ -1074 ≤ k ∧ q = m * 2 ^ k
  := by
  have hpow : (0 : ℚ) < 2 ^ ulpExponent q := zpow_pos two_pos _
  refine ⟨roundEven (q / 2 ^ ulpExponent q), ulpExponent q, ?_, le_max_right _ _, h.symm⟩
  have hlog : Int.log 2 |q| + 1 ≤ 53 + ulpExponent q := by
    have hle : Int.log 2 |q| - 52 ≤ ulpExponent q := le_max_left _ _
    omega
  have hlt : |q| < 2 ^ (53 : ℤ) * 2 ^ ulpExponent q := by
    calc |q| < 2 ^ (Int.log 2 |q| + 1) := Int.lt_zpow_succ_log_self one_lt_two |q|
      _ ≤ 2 ^ (53 + ulpExponent q) := zpow_le_zpow_right₀ one_le_two hlog
      _ = 2 ^ (53 : ℤ) * 2 ^ ulpExponent q := zpow_add₀ two_ne_zero _ _
  have habs : |q| = (|roundEven (q / 2 ^ ulpExponent q)| : ℤ) * 2 ^ ulpExponent q := by
    conv_lhs => rw [← h, roundRat]
    rw [abs_mul, abs_of_pos hpow, Int.cast_abs]
  rw [habs] at hlt
  have hcast := lt_of_mul_lt_mul_right hlt hpow.le
  exact_mod_cast hcast.le

/-- Multiplying by a power of two keeps a number a number. -/
theorem roundRat_mul_two_pow {q : ℚ} (h : roundRat q = q) (j : ℕ) :
  roundRat (q * 2 ^ j) = q * 2 ^ j
  := by
  obtain ⟨m, k, hm, hk, hq⟩ := exists_significand h
  have hmul : q * 2 ^ j = m * 2 ^ (k + j) := by
    rw [hq, zpow_add₀ two_ne_zero, zpow_natCast, mul_assoc]
  rw [hmul]
  apply roundRat_eq_self hm
  omega

/-- A number that is its own nearest number is not rounded. -/
theorem roundRat_of_ofRat {q : ℚ} (h : ofRat q = finite q) :
  roundRat q = q
  := by
  rw [ofRat] at h
  split_ifs at h
  apply finite.inj h

/-- The product of a number with a power of two, when it is in range. -/
theorem scale_two_pow {q : ℚ} (h : ofRat q = finite q) (j : ℕ) (hrange : |q * 2 ^ j| < 2 ^ 1024) :
  (finite q).scale (2 ^ j) = finite (q * 2 ^ j)
  := by
  rw [scale, ofRat, roundRat_mul_two_pow (roundRat_of_ofRat h), if_neg (not_le.mpr hrange)]

/-- An integer of at most 53 bits is a number. -/
theorem ofRat_intCast {n : ℤ} (hn : |n| ≤ 2 ^ 53) :
  ofRat n = finite n
  := by
  have hround : roundRat (n : ℚ) = n := by
    have h := roundRat_eq_self hn (show -1074 ≤ (0 : ℤ) by norm_num)
    rw [zpow_zero, mul_one] at h
    apply h
  have hsmall : ¬ (2 : ℚ) ^ 1024 ≤ |(n : ℚ)| := by
    have hcast : |(n : ℚ)| ≤ 2 ^ 53 := by exact_mod_cast hn
    have hlt : (2 : ℚ) ^ 53 < 2 ^ 1024 := by
      apply pow_lt_pow_right₀ one_lt_two
      norm_num
    apply not_le.mpr (lt_of_le_of_lt hcast hlt)
  rw [ofRat, hround, if_neg hsmall]

/-- Converting an integer to a number and back. -/
theorem toInt64_intCast {n : ℤ} (h : -2 ^ 63 ≤ n) (h' : n < 2 ^ 63) :
  toInt64 (finite n) = n
  := by
  have htrunc : ((n : ℚ).num).tdiv ((n : ℚ).den) = n := by simp
  rw [toInt64, htrunc, if_pos ⟨h, h'⟩]

end Binary64
