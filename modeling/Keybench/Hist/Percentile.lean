import Keybench.Hist.Buckets
import Keybench.Hist.Samples
import Mathlib.Tactic.Linarith
import Mathlib.Tactic.NormNum

/-!
# Percentiles

The loop of `histPercentile` selects among the tallies of the buckets, so a percentile is
the value of a bucket, kept between the least and the greatest sample.  The bucket is the
one of the sample at the rank of the percentile, up to the order inside the top octave
(`exists_histPercentile`).

Below `64` a bucket stands for a stretched sample, so a percentile can miss its sample, and
a greater percentile can be the smaller one.  `histPercentile_near_iff` and
`histPercentile_ordered_iff` say when neither happens.
-/

namespace Keybench

open OrderStatistic

/-! ## Ranks -/

theorem histTarget_eq (p : ℚ) (count : ℕ) :
  histTarget p count = max 1 ⌊p / 100 * count + 1 / 2⌋₊
  := by
  simp only [histTarget]
  split_ifs <;> omega

theorem histTarget_pos (p : ℚ) (count : ℕ) :
  0 < histTarget p count
  := by
  rw [histTarget_eq]
  apply Nat.lt_of_lt_of_le Nat.one_pos (le_max_left _ _)

/-- Below `100` the rank is one of a sample. -/
theorem histTarget_le {p : ℚ} (hp : p < 100) {count : ℕ} (hcount : 0 < count) :
  histTarget p count ≤ count
  := by
  rw [histTarget_eq]
  apply max_le hcount
  apply Nat.le_of_lt_succ
  apply (Nat.floor_lt' (Nat.succ_ne_zero _)).mpr
  have hpos : (0 : ℚ) < count := by exact_mod_cast hcount
  have hle : p / 100 * count ≤ 1 * count := by
    apply mul_le_mul_of_nonneg_right _ hpos.le
    linarith
  push_cast
  linarith

/-- Ranks ascend with percentiles. -/
theorem histTarget_mono {p q : ℚ} (h : p ≤ q) (count : ℕ) :
  histTarget p count ≤ histTarget q count
  := by
  rw [histTarget_eq, histTarget_eq]
  apply max_le_max_left
  apply Nat.floor_mono
  have hcount : (0 : ℚ) ≤ count := Nat.cast_nonneg _
  have hle : p / 100 * count ≤ q / 100 * count := by
    apply mul_le_mul_of_nonneg_right _ hcount
    linarith
  linarith

/-! ## The selected bucket -/

/-- The loop clamps the value of the bucket that `select` finds. -/
theorem histScan_of_select {h : Hist} {target : ℕ} {i : Fin histBuckets} :
  ∀ {is : List (Fin histBuckets)} {cum : ℕ}, select h.buckets target is cum = some i →
    histScan h target is cum = histClamp h (histValueAt i)
  | [], cum, hi => by simp [select] at hi
  | j :: is, cum, hi => by
    rw [select] at hi
    rw [histScan]
    split_ifs at hi ⊢ with hj
    · rw [Option.some.inj hi]
    · apply histScan_of_select hi

/-- The buckets in ascending order. -/
theorem finRange_pairwise :
  (List.finRange histBuckets).Pairwise (· < ·)
  := List.pairwise_lt_finRange histBuckets

/-- Clamping, in natural numbers. -/
theorem toNat_histClamp {h : Hist} (hle : h.min ≤ h.max) (v : UInt64) :
  (histClamp h v).toNat = min (max v.toNat h.min.toNat) h.max.toNat
  := by
  rw [UInt64.le_iff_toNat_le] at hle
  simp only [histClamp, gt_iff_lt, UInt64.lt_iff_toNat_lt]
  split_ifs <;> omega

/-- A histogram of samples has its least value below its greatest. -/
theorem histOf_min_le_max {xs : List UInt64} (hne : xs ≠ []) :
  (histOf xs).min ≤ (histOf xs).max
  := by
  obtain ⟨x, hx⟩ := List.exists_mem_of_ne_nil xs hne
  apply (histOf_min_le x hx).trans (le_histOf_max x hx)

/-- A percentile is the clamped value of a bucket.  The bucket is found at the rank of the
percentile and, up to the order inside the top octave, is the one of the sample at that
rank. -/
theorem exists_histPercentile {xs : List UInt64} (hne : xs ≠ []) {p : ℚ} (hpos : 0 < p)
    (hlt : p < 100) :
  ∃ v i, orderStatistic xs (histTarget p xs.length) = some v ∧ v ∈ xs ∧
    select (tally histBucket xs) (histTarget p xs.length) (List.finRange histBuckets) 0 = some i ∧
    min i.val (39 * 64) = min (histIndex v) (39 * 64) ∧
    histPercentile (histOf xs) p = histClamp (histOf xs) (histValueAt i)
  := by
  have hcount : 0 < xs.length := List.length_pos_of_ne_nil hne
  have hrank := histTarget_pos p xs.length
  have hall : ∀ x ∈ xs, histBucket x ∈ List.finRange histBuckets := by
    intro x _
    apply List.mem_finRange
  obtain ⟨v, hv, hmem, -⟩ := orderStatistic_spec hrank (histTarget_le hlt hcount)
  obtain ⟨i, hi⟩ := exists_select finRange_pairwise hall hrank (histTarget_le hlt hcount)
  have hmono : Monotone (fun i : Fin histBuckets => min i.val (39 * 64)) :=
    fun _ _ hij => min_le_min_right _ hij
  use v, i, hv, hmem, hi
  constructor
  · apply select_coarse hmono _ finRange_pairwise hall hrank hv hi
    intro x _ y _ hxy
    apply min_histIndex_mono hxy
  · rw [histPercentile, histOf_count, if_neg hcount.ne', if_neg (not_le.mpr hpos),
      if_neg (not_le.mpr hlt)]
    apply histScan_of_select
    rw [histOf_buckets, hi]

/-- When all samples are below the end of the top octave the bucket is exactly the one of
the sample at the rank. -/
theorem histPercentile_of_small {xs : List UInt64} (hne : xs ≠ [])
    (hsmall : ∀ x ∈ xs, x.toNat < 2 ^ 40) {p : ℚ} (hpos : 0 < p) (hlt : p < 100) :
  ∃ v, orderStatistic xs (histTarget p xs.length) = some v ∧ v ∈ xs ∧
    histPercentile (histOf xs) p = histClamp (histOf xs) (histValueAt (histIndex v))
  := by
  obtain ⟨v, i, hv, hmem, hi, -, hp⟩ := exists_histPercentile hne hpos hlt
  use v, hv, hmem
  have hall : ∀ x ∈ xs, histBucket x ∈ List.finRange histBuckets := by
    intro x _
    apply List.mem_finRange
  have hkey : i = histBucket v := by
    apply select_eq_key _ finRange_pairwise hall (histTarget_pos p xs.length) hv hi
    intro x hx y hy hxy
    apply histIndex_mono hxy
    have hlt := hsmall y hy
    omega
  rw [hp, hkey]
  rfl

/-! ## Accuracy -/

/-- Stretching moves a sample up. -/
theorem le_stretched (w : ℕ) :
  w ≤ stretched w
  := by
  rw [stretched]
  split_ifs with h0 hnarrow
  · omega
  · have hlog : w.log2 < 6 := (Nat.log2_lt h0).mpr hnarrow
    have hpow : 2 ^ w.log2 ≤ 2 ^ 5 := Nat.pow_le_pow_right (by omega) (by omega)
    have hfactor : 1 ≤ 64 / 2 ^ w.log2 := by
      apply (Nat.le_div_iff_mul_le (Nat.two_pow_pos _)).mpr
      omega
    have hmul := Nat.mul_le_mul_left (w - 2 ^ w.log2) hfactor
    omega
  · apply le_refl

/-- A stretched sample below `64` stays below `128`. -/
theorem stretched_lt {w : ℕ} (hw : w < 64) :
  stretched w < 128
  := by
  rw [stretched, if_pos hw]
  split_ifs with h0
  · omega
  · have hlog : w.log2 < 6 := (Nat.log2_lt h0).mpr hw
    have hle := Nat.log2_self_le h0
    have hlt : w < 2 ^ (w.log2 + 1) := Nat.lt_log2_self
    have hpow : 2 ^ w.log2 ≤ 2 ^ 5 := Nat.pow_le_pow_right (by omega) (by omega)
    have hmul : (w - 2 ^ w.log2) * (64 / 2 ^ w.log2) ≤ 2 ^ w.log2 * (64 / 2 ^ w.log2) := by
      apply Nat.mul_le_mul_right
      rw [Nat.pow_succ] at hlt
      omega
    have hdiv := Nat.mul_div_le 64 (2 ^ w.log2)
    omega

/-- The samples below `64` that stretching moves by at most one. -/
theorem stretched_le_succ_iff {w : ℕ} (hw : w < 64) :
  stretched w ≤ w + 1 ↔ w ∈ [0, 1, 2, 4, 8, 16, 32, 33]
  := by
  revert w
  decide

/-- The percentile of a sample below `64` is the stretched sample, at most the greatest
one. -/
theorem toNat_histPercentile_narrow {xs : List UInt64} (hne : xs ≠ []) {v : UInt64}
    (hmem : v ∈ xs) (hnarrow : v.toNat < 128) :
  (histClamp (histOf xs) (histValueAt (histIndex v))).toNat
    = min (stretched v.toNat) (histOf xs).max.toNat
  := by
  have hmin := UInt64.le_iff_toNat_le.mp (histOf_min_le v hmem)
  have hle := le_stretched v.toNat
  rw [toNat_histClamp (histOf_min_le_max hne), histValueAt_stretched hnarrow]
  omega

/-- The percentile of a sample from `64` on is at most the 64th part of it away. -/
theorem toNat_histPercentile_wide {xs : List UInt64} (hne : xs ≠ []) {v : UInt64}
    (hmem : v ∈ xs) (hwide : 64 ≤ v.toNat) (htop : v.toNat < 2 ^ 40) :
  (histClamp (histOf xs) (histValueAt (histIndex v))).toNat ≤ v.toNat + v.toNat / 64 ∧
    v.toNat ≤ (histClamp (histOf xs) (histValueAt (histIndex v))).toNat + v.toNat / 64
  := by
  have hmin := UInt64.le_iff_toNat_le.mp (histOf_min_le v hmem)
  have hmax := UInt64.le_iff_toNat_le.mp (le_histOf_max v hmem)
  have hnear := histValueAt_near hwide htop
  rw [toNat_histClamp (histOf_min_le_max hne)]
  omega

/-- All samples are at most `b` when the greatest one is. -/
theorem toNat_histOf_max_le_iff {xs : List UInt64} {b : ℕ} (hb : b < 2 ^ 64) :
  (histOf xs).max.toNat ≤ b ↔ ∀ s ∈ xs, s.toNat ≤ b
  := by
  have hcast : b.toUInt64.toNat = b := by
    rw [Nat.toUInt64, UInt64.toNat_ofNat', Nat.mod_eq_of_lt hb]
  have h : (histOf xs).max ≤ b.toUInt64 ↔ ∀ s ∈ xs, s ≤ b.toUInt64 := histOf_max_le_iff
  simpa only [UInt64.le_iff_toNat_le, hcast] using h

/-- The distance of a percentile to its sample, in rational numbers. -/
theorem abs_sub_le_max_iff (x v : ℕ) :
  |(x : ℚ) - v| ≤ max 1 ((v : ℚ) / 64) ↔ x ≤ v + max 1 (v / 64) ∧ v ≤ x + max 1 (v / 64)
  := by
  have hfloor : ∀ d : ℕ, (d : ℚ) ≤ max 1 ((v : ℚ) / 64) ↔ d ≤ max 1 (v / 64) := by
    intro d
    rw [le_max_iff, le_max_iff, Nat.le_div_iff_mul_le (by norm_num),
      le_div_iff₀ (by norm_num : (0 : ℚ) < 64)]
    constructor
    · rintro (h | h)
      · left
        exact_mod_cast h
      · right
        exact_mod_cast h
    · rintro (h | h)
      · left
        exact_mod_cast h
      · right
        exact_mod_cast h
  rcases Nat.le_total v x with h | h
  · obtain ⟨d, rfl⟩ := Nat.exists_eq_add_of_le h
    have habs : |((v + d : ℕ) : ℚ) - v| = d := by
      push_cast
      rw [add_sub_cancel_left, abs_of_nonneg (Nat.cast_nonneg d)]
    rw [habs, hfloor]
    omega
  · obtain ⟨d, rfl⟩ := Nat.exists_eq_add_of_le h
    have habs : |(x : ℚ) - ((x + d : ℕ) : ℚ)| = d := by
      push_cast
      rw [sub_add_cancel_left, abs_neg, abs_of_nonneg (Nat.cast_nonneg d)]
    rw [habs, hfloor]
    omega

/-- A percentile of small samples is within one, or within the 64th part, of the sample at
its rank exactly when that sample is not in a narrow octave, or is not moved there by more
than one, or no sample exceeds it by more than one. -/
theorem histPercentile_near_iff {samples : List UInt64} (hne : samples ≠ [])
    (hsmall : ∀ s ∈ samples, s.toNat < 2 ^ 40) {p : ℚ} (hpos : 0 < p) (hlt : p < 100) :
  ∃ v, orderStatistic samples (max 1 ⌊p / 100 * samples.length + 1 / 2⌋₊) = some v ∧
    (|((histPercentile (samples.foldl histRecord histReset) p).toNat : ℚ) - v.toNat|
        ≤ max 1 ((v.toNat : ℚ) / 64) ↔
      64 ≤ v.toNat ∨ v.toNat ∈ [0, 1, 2, 4, 8, 16, 32, 33] ∨
        ∀ s ∈ samples, s.toNat ≤ v.toNat + 1)
  := by
  obtain ⟨v, hv, hmem, hp⟩ := histPercentile_of_small hne hsmall hpos hlt
  rw [histTarget_eq] at hv
  use v, hv
  rw [foldl_histRecord_histReset, abs_sub_le_max_iff, hp]
  by_cases hwide : 64 ≤ v.toNat
  · have hnear := toNat_histPercentile_wide hne hmem hwide (hsmall v hmem)
    simp only [hwide, true_or, iff_true]
    omega
  · have hnarrow := not_le.mp hwide
    have hmax := UInt64.le_iff_toNat_le.mp (le_histOf_max v hmem)
    have hle := le_stretched v.toNat
    rw [toNat_histPercentile_narrow hne hmem (by omega), ← stretched_le_succ_iff hnarrow,
      ← toNat_histOf_max_le_iff (by omega)]
    omega

/-- The samples `64` and `100` and their median. -/
theorem histPercentile_near_iff_example :
  ∃ v, orderStatistic ([64, 100] : List UInt64)
      (max 1 ⌊(50 : ℚ) / 100 * (2 : ℕ) + 1 / 2⌋₊) = some v ∧
    (|((histPercentile ([64, 100].foldl histRecord histReset) 50).toNat : ℚ) - v.toNat|
        ≤ max 1 ((v.toNat : ℚ) / 64) ↔
      64 ≤ v.toNat ∨ v.toNat ∈ [0, 1, 2, 4, 8, 16, 32, 33] ∨
        ∀ s ∈ ([64, 100] : List UInt64), s.toNat ≤ v.toNat + 1)
  := histPercentile_near_iff (List.cons_ne_nil 64 [100]) (by simp) (by norm_num) (by norm_num)

/-- The median of the samples `3` and `100` is `3`, and the percentile is `34`. -/
theorem histPercentile_not_near :
  ∃ v, orderStatistic ([3, 100] : List UInt64)
      (max 1 ⌊(50 : ℚ) / 100 * (2 : ℕ) + 1 / 2⌋₊) = some v ∧
    ¬ |((histPercentile ([3, 100].foldl histRecord histReset) 50).toNat : ℚ) - v.toNat|
        ≤ max 1 ((v.toNat : ℚ) / 64)
  := by
  have hrank : ⌊(50 : ℚ) / 100 * (2 : ℕ) + 1 / 2⌋₊ = 1 := by
    rw [Nat.floor_eq_iff] <;> norm_num
  have hsort : orderStatistic ([3, 100] : List UInt64) 1 = some 3 := by
    rw [orderStatistic, List.mergeSort_eq_self] <;> decide
  obtain ⟨v, hv, hmem, hp⟩ := histPercentile_of_small (p := 50) (List.cons_ne_nil 3 [100])
    (by simp) (by norm_num) (by norm_num)
  have hlen : ([3, 100] : List UInt64).length = 2 := rfl
  rw [histTarget_eq, hlen, hrank, max_self, hsort] at hv
  obtain rfl := Option.some.inj hv
  have hvalue := toNat_histPercentile_narrow (v := 3) (List.cons_ne_nil 3 [100]) hmem (by decide)
  have hmin : min (stretched (3 : UInt64).toNat) (histOf [3, 100]).max.toNat = 34 := by decide
  use 3
  rw [hrank, max_self, foldl_histRecord_histReset, abs_sub_le_max_iff, hp, hvalue, hmin]
  constructor
  · apply hsort
  · decide

/-! ## Order -/

/-- A bucket that agrees with the one of a sample below `128` is that bucket. -/
theorem eq_histIndex_of_min {i : ℕ} {w : UInt64} (hw : w.toNat < 128)
    (h : min i (39 * 64) = min (histIndex w) (39 * 64)) :
  i = histIndex w
  := by
  have hle : histIndex w ≤ histIndex 127 := by
    apply histIndex_mono
    · apply UInt64.le_iff_toNat_le.mpr (Nat.le_of_lt_succ hw)
    · decide
  have h127 : histIndex 127 = 447 := by decide
  omega

/-- A bucket that agrees with the one of a greater sample than `w` is at least the one of
`w`. -/
theorem le_of_min_histIndex {i : ℕ} {u w : UInt64} (hw : w ≤ u) (htop : histIndex w ≤ 39 * 64)
    (h : min i (39 * 64) = min (histIndex u) (39 * 64)) :
  histIndex w ≤ i
  := by
  have hmono := min_histIndex_mono hw
  omega

/-- A percentile is at least the least sample and at most the greatest one. -/
theorem histPercentile_mem {xs : List UInt64} (hne : xs ≠ []) (p : ℚ) :
  (histOf xs).min ≤ histPercentile (histOf xs) p ∧
    histPercentile (histOf xs) p ≤ (histOf xs).max
  := by
  have hle := histOf_min_le_max hne
  have hcount : (histOf xs).count ≠ 0 := (List.length_pos_of_ne_nil hne).ne'
  by_cases hpos : 0 < p
  · by_cases hlt : p < 100
    · obtain ⟨v, i, -, -, -, -, hp⟩ := exists_histPercentile hne hpos hlt
      simp only [UInt64.le_iff_toNat_le, hp, toNat_histClamp hle] at hle ⊢
      omega
    · rw [histPercentile, if_neg hcount, if_neg (not_le.mpr hpos), if_pos (not_lt.mp hlt)]
      exact ⟨hle, le_refl _⟩
  · rw [histPercentile, if_neg hcount, if_pos (not_lt.mp hpos)]
    exact ⟨le_refl _, hle⟩

/-- Between `0` and `100` a greater percentile is at least as great exactly when stretching
keeps the order of the samples at the two ranks, or no sample exceeds the stretched greater
one. -/
theorem histPercentile_le_iff {xs : List UInt64} (hne : xs ≠ []) {p q : ℚ} (hpos : 0 < p)
    (hpq : p ≤ q) (hlt : q < 100) :
  ∃ u v, orderStatistic xs (histTarget p xs.length) = some u ∧
    orderStatistic xs (histTarget q xs.length) = some v ∧
    (histPercentile (histOf xs) p ≤ histPercentile (histOf xs) q ↔
      stretched u.toNat ≤ stretched v.toNat ∨ ∀ s ∈ xs, s.toNat ≤ stretched v.toNat)
  := by
  obtain ⟨u, i, hu, humem, hi, hui, hp⟩ := exists_histPercentile hne hpos (hpq.trans_lt hlt)
  obtain ⟨v, j, hv, hvmem, hj, hvj, hq⟩ := exists_histPercentile hne (hpos.trans_le hpq) hlt
  use u, v, hu, hv
  have huv : u ≤ v :=
    orderStatistic_mono (histTarget_pos p _) (histTarget_mono hpq _) hu hv
  have hij : i ≤ j := select_mono (histTarget_mono hpq _) finRange_pairwise hi hj
  have hmax := histOf_min_le_max hne
  rw [UInt64.le_iff_toNat_le] at huv
  by_cases hu64 : 64 ≤ u.toNat
  · -- both samples are in wide octaves
    have hwide : 6 * 64 ≤ i.val := by
      apply le_of_min_histIndex (w := 64) (UInt64.le_iff_toNat_le.mpr hu64) (by decide) hui
    have hle := histValueAt_mono j.isLt hwide hij
    have hsu : stretched u.toNat = u.toNat := by
      rw [stretched, if_neg (by omega), if_neg (by omega)]
    have hsv : stretched v.toNat = v.toNat := by
      rw [stretched, if_neg (by omega), if_neg (by omega)]
    rw [hp, hq, UInt64.le_iff_toNat_le, toNat_histClamp hmax, toNat_histClamp hmax, hsu, hsv]
    simp only [huv, true_or, iff_true]
    omega
  · have hnarrow := stretched_lt (not_le.mp hu64)
    have hieq := eq_histIndex_of_min (by omega) hui
    by_cases hv128 : 128 ≤ v.toNat
    · -- the greater sample is beyond the values of the narrow octaves
      have hwide : 7 * 64 ≤ j.val := by
        apply le_of_min_histIndex (w := 128) (UInt64.le_iff_toNat_le.mpr hv128) (by decide) hvj
      have hvalue := (histValueAt_wide j.isLt (by omega)).1
      have hpow : 2 ^ 7 ≤ 2 ^ (j.val / 64) := Nat.pow_le_pow_right (by omega) (by omega)
      have hsv : stretched v.toNat = v.toNat := by
        rw [stretched, if_neg (by omega), if_neg (by omega)]
      have hsuv : stretched u.toNat ≤ v.toNat := by omega
      rw [hp, hq, UInt64.le_iff_toNat_le, toNat_histClamp hmax, toNat_histClamp hmax, hsv,
        hieq, histValueAt_stretched (by omega)]
      simp only [hsuv, true_or, iff_true]
      omega
    · -- both samples are below `128`, where buckets stand for stretched samples
      have hjeq := eq_histIndex_of_min (by omega) hvj
      have hvmax := UInt64.le_iff_toNat_le.mp (le_histOf_max v hvmem)
      have humax := UInt64.le_iff_toNat_le.mp (le_histOf_max u humem)
      have hule := le_stretched u.toNat
      have hvbound : stretched v.toNat < 2 ^ 64 := by
        by_cases hv64 : v.toNat < 64
        · have h := stretched_lt hv64
          omega
        · rw [stretched, if_neg (by omega), if_neg hv64]
          omega
      rw [hp, hq, hieq, hjeq, UInt64.le_iff_toNat_le, toNat_histPercentile_narrow hne humem
        (by omega), toNat_histPercentile_narrow hne hvmem (by omega),
        ← toNat_histOf_max_le_iff hvbound]
      omega

/-- In every histogram a run makes, percentiles lie between the least and the greatest
sample in their order exactly when the lesser is the least sample, or the greater the
greatest, or stretching keeps the order of the samples at the two ranks, or no sample
exceeds the stretched greater one. -/
theorem histPercentile_ordered_iff {samples : List UInt64} {h : Hist}
    (hreached : HistReached samples h) (hne : samples ≠ []) {p q : ℚ} (hp : 0 ≤ p)
    (hpq : p ≤ q) (hq : q ≤ 100) :
  (h.min ≤ histPercentile h p ∧ histPercentile h p ≤ histPercentile h q ∧
      histPercentile h q ≤ h.max) ↔
    p = 0 ∨ q = 100 ∨ ∃ u v,
      orderStatistic samples (max 1 ⌊p / 100 * samples.length + 1 / 2⌋₊) = some u ∧
      orderStatistic samples (max 1 ⌊q / 100 * samples.length + 1 / 2⌋₊) = some v ∧
      (stretched u.toNat ≤ stretched v.toNat ∨ ∀ s ∈ samples, s.toNat ≤ stretched v.toNat)
  := by
  rw [hreached.eq_histOf]
  have hcount : (histOf samples).count ≠ 0 := (List.length_pos_of_ne_nil hne).ne'
  have hpmem := histPercentile_mem hne p
  have hqmem := histPercentile_mem hne q
  by_cases hp0 : p = 0
  · have hmin : histPercentile (histOf samples) p = (histOf samples).min := by
      rw [histPercentile, if_neg hcount, if_pos hp0.le]
    simp only [hp0, true_or, iff_true]
    rw [hp0] at hmin
    rw [hmin]
    exact ⟨le_refl _, hqmem⟩
  by_cases hq100 : q = 100
  · have hmax : histPercentile (histOf samples) q = (histOf samples).max := by
      rw [histPercentile, if_neg hcount, if_neg (by linarith), if_pos hq100.ge]
    simp only [hq100, true_or, or_true, iff_true]
    rw [hq100] at hmax
    rw [hmax]
    exact ⟨hpmem.1, hpmem.2, le_refl _⟩
  · obtain ⟨u, v, hu, hv, hiff⟩ := histPercentile_le_iff hne
      (lt_of_le_of_ne hp (Ne.symm hp0)) hpq (lt_of_le_of_ne hq hq100)
    rw [histTarget_eq] at hu hv
    simp only [hpmem.1, hqmem.2, true_and, and_true, hp0, hq100, false_or, hiff, hu, hv,
      Option.some.injEq, exists_eq_left', ↓existsAndEq]

/-- The samples `70` and `90`, recorded one by one, and their percentiles `33` and `90`. -/
theorem histPercentile_ordered_iff_example :
  ((histRecord (histRecord histReset 90) 70).min
        ≤ histPercentile (histRecord (histRecord histReset 90) 70) 33 ∧
      histPercentile (histRecord (histRecord histReset 90) 70) 33
        ≤ histPercentile (histRecord (histRecord histReset 90) 70) 90 ∧
      histPercentile (histRecord (histRecord histReset 90) 70) 90
        ≤ (histRecord (histRecord histReset 90) 70).max) ↔
    (33 : ℚ) = 0 ∨ (90 : ℚ) = 100 ∨ ∃ u v,
      orderStatistic ([70, 90] : List UInt64) (max 1 ⌊(33 : ℚ) / 100 * (2 : ℕ) + 1 / 2⌋₊)
        = some u ∧
      orderStatistic ([70, 90] : List UInt64) (max 1 ⌊(90 : ℚ) / 100 * (2 : ℕ) + 1 / 2⌋₊)
        = some v ∧
      (stretched u.toNat ≤ stretched v.toNat ∨
        ∀ s ∈ ([70, 90] : List UInt64), s.toNat ≤ stretched v.toNat)
  := histPercentile_ordered_iff (.record 70 (.record 90 .reset)) (by decide) (by norm_num)
    (by norm_num) (by norm_num)

/-- The samples `3`, `4` and `100`, recorded one by one: the percentile `33` is `34` and the
median is `4`. -/
theorem histPercentile_not_ordered :
  HistReached [3, 4, 100] (histRecord (histRecord (histRecord histReset 100) 4) 3) ∧
    ¬ histPercentile (histRecord (histRecord (histRecord histReset 100) 4) 3) 33
      ≤ histPercentile (histRecord (histRecord (histRecord histReset 100) 4) 3) 50
  := by
  have hreached : HistReached [3, 4, 100]
      (histRecord (histRecord (histRecord histReset 100) 4) 3) :=
    .record 3 (.record 4 (.record 100 .reset))
  have hrank33 : ⌊(33 : ℚ) / 100 * (3 : ℕ) + 1 / 2⌋₊ = 1 := by
    rw [Nat.floor_eq_iff] <;> norm_num
  have hrank50 : ⌊(50 : ℚ) / 100 * (3 : ℕ) + 1 / 2⌋₊ = 2 := by
    rw [Nat.floor_eq_iff] <;> norm_num
  have hlen : ([3, 4, 100] : List UInt64).length = 3 := rfl
  have hsort : ∀ r, orderStatistic ([3, 4, 100] : List UInt64) r
      = ([3, 4, 100] : List UInt64)[r - 1]? := by
    intro r
    rw [orderStatistic, List.mergeSort_eq_self]
    decide
  obtain ⟨u, v, hu, hv, hiff⟩ := histPercentile_le_iff (p := 33) (q := 50)
    (List.cons_ne_nil 3 [4, 100]) (by norm_num) (by norm_num) (by norm_num)
  rw [histTarget_eq, hlen, hrank33, hsort] at hu
  rw [histTarget_eq, hlen, hrank50, hsort] at hv
  obtain rfl := Option.some.inj hu
  obtain rfl := Option.some.inj hv
  constructor
  · apply hreached
  · rw [hreached.eq_histOf, hiff]
    simp only [List.forall_mem_cons]
    decide

end Keybench
