import Keybench.Hist.Ops

/-!
# Buckets and the values they stand for

The index of a bucket and the value it stands for, in natural numbers.  From the octave of
`64` on a bucket stands for a value as near to its samples as the width of the bucket.
Below, a slot is narrower than one, and the bucket of `w` stands for `stretched w`: the
offset of `w` in its octave is stretched to the slots of the octave.
-/

namespace Keybench

/-! ## Powers of two -/

theorem toNat_one_shiftLeft {k : ℕ} (hk : k < 64) :
  ((1 : UInt64) <<< k.toUInt64).toNat = 2 ^ k
  := by
  have hk' : k.toUInt64.toNat = k := by
    rw [Nat.toUInt64, UInt64.toNat_ofNat']
    omega
  have hpow : 2 ^ k < 2 ^ 64 := Nat.pow_lt_pow_right (by omega) hk
  rw [UInt64.toNat_shiftLeft, hk', UInt64.toNat_one, Nat.mod_eq_of_lt hk, Nat.one_shiftLeft,
    Nat.mod_eq_of_lt hpow]

/-- The octave of a nonzero word is below `64`. -/
theorem log2_toNat_lt {v : UInt64} (hv : v ≠ 0) :
  v.toNat.log2 < 64
  := by
  apply (Nat.log2_lt _).mpr v.toNat_lt
  intro h
  apply hv
  apply UInt64.toNat_inj.mp h

/-! ## The bucket of a value -/

/-- The octave of a value, capped at the top one. -/
def octaveOf (w : ℕ) : ℕ := min w.log2 39

theorem two_pow_octaveOf_le {w : ℕ} (hw : w ≠ 0) :
  2 ^ octaveOf w ≤ w
  := by
  calc 2 ^ octaveOf w ≤ 2 ^ w.log2 := Nat.pow_le_pow_right (by omega) (min_le_left _ _)
    _ ≤ w := Nat.log2_self_le hw

/-- A value below the top octave's end is below twice the base of its octave. -/
theorem lt_two_pow_octaveOf {w : ℕ} (hw : w < 2 ^ 40) :
  w < 2 * 2 ^ octaveOf w
  := by
  rcases Nat.eq_zero_or_pos w with rfl | hpos
  · apply Nat.mul_pos (by omega) (Nat.two_pow_pos _)
  · have hlog : w.log2 < 40 := (Nat.log2_lt hpos.ne').mpr hw
    have hoct : octaveOf w = w.log2 := by
      rw [octaveOf]
      omega
    rw [hoct, ← Nat.pow_succ']
    apply Nat.lt_log2_self

/-- The bucket of a nonzero value.  The product of its offset wraps around. -/
theorem histIndex_eq {v : UInt64} (hv : v ≠ 0) :
  histIndex v = octaveOf v.toNat * 64
    + min ((v.toNat - 2 ^ octaveOf v.toNat) * 64 % 2 ^ 64 / 2 ^ octaveOf v.toNat) 63
  := by
  have hlog := log2_toNat_lt hv
  have hoct : (if 63 - clzll v ≥ histOct then histOct - 1 else 63 - clzll v)
      = octaveOf v.toNat := by
    rw [capped_octave, clzll, octaveOf]
    omega
  have hne : v.toNat ≠ 0 := fun h => hv (UInt64.toNat_inj.mp h)
  have hbase : ((1 : UInt64) <<< (octaveOf v.toNat).toUInt64).toNat = 2 ^ octaveOf v.toNat := by
    apply toNat_one_shiftLeft
    rw [octaveOf]
    omega
  have hle : (1 : UInt64) <<< (octaveOf v.toNat).toUInt64 ≤ v := by
    rw [UInt64.le_iff_toNat_le, hbase]
    apply two_pow_octaveOf_le hne
  have hsub : histSub.toUInt64.toNat = 64 := rfl
  have hslot : ((v - 1 <<< (octaveOf v.toNat).toUInt64) * histSub.toUInt64
      / 1 <<< (octaveOf v.toNat).toUInt64).toNat
      = (v.toNat - 2 ^ octaveOf v.toNat) * 64 % 2 ^ 64 / 2 ^ octaveOf v.toNat := by
    rw [UInt64.toNat_div, UInt64.toNat_mul, UInt64.toNat_sub_of_le _ _ hle, hbase, hsub]
  simp only [histIndex, hv, if_false, hoct]
  rw [← hslot, histSub]
  congr 1
  split_ifs with h
  · rw [ge_iff_le, UInt64.le_iff_toNat_le] at h
    rw [min_eq_right]
    · rfl
    · apply le_trans _ h
      decide
  · rw [ge_iff_le, UInt64.le_iff_toNat_le] at h
    rw [min_eq_left]
    apply Nat.le_of_lt_succ (not_le.mp h)

/-- The bucket of a nonzero value whose offset does not wrap around. -/
theorem histIndex_of_lt {v : UInt64} (hv : v ≠ 0) (hwrap : v.toNat < 2 ^ 58) :
  histIndex v = octaveOf v.toNat * 64
    + min ((v.toNat - 2 ^ octaveOf v.toNat) * 64 / 2 ^ octaveOf v.toNat) 63
  := by
  have hsub := Nat.sub_le v.toNat (2 ^ octaveOf v.toNat)
  rw [histIndex_eq hv, Nat.mod_eq_of_lt (by omega)]

/-- The bucket of a nonzero value below the end of the top octave. -/
theorem histIndex_of_lt_top {v : UInt64} (hv : v ≠ 0) (htop : v.toNat < 2 ^ 40) :
  histIndex v = octaveOf v.toNat * 64
    + (v.toNat - 2 ^ octaveOf v.toNat) * 64 / 2 ^ octaveOf v.toNat
  := by
  rw [histIndex_of_lt hv (htop.trans (by norm_num)), min_eq_left]
  apply Nat.le_of_lt_succ
  apply Nat.div_lt_of_lt_mul
  have hlt := lt_two_pow_octaveOf htop
  have hpos := Nat.two_pow_pos (octaveOf v.toNat)
  omega

/-- A value from the base of the top octave on falls into the top octave. -/
theorem le_histIndex_of_top {v : UInt64} (htop : 2 ^ 39 ≤ v.toNat) :
  39 * 64 ≤ histIndex v
  := by
  have hv : v ≠ 0 := by
    rintro rfl
    simp at htop
  have hlog : 39 ≤ v.toNat.log2 := by
    apply (Nat.le_log2 _).mpr htop
    omega
  have hoct : min (63 - clzll v) 39 = 39 := by
    have hlt := log2_toNat_lt hv
    rw [clzll]
    omega
  simp only [histIndex, hv, if_false, capped_octave, hoct, histSub]
  apply Nat.le_add_right

theorem octaveOf_mono {w z : ℕ} (h : w ≤ z) :
  octaveOf w ≤ octaveOf z
  := by
  apply min_le_min_right
  rcases Nat.eq_zero_or_pos w with rfl | hpos
  · rw [Nat.log2_zero]
    apply Nat.zero_le
  · apply (Nat.le_log2 (by omega)).mpr
    apply (Nat.log2_self_le hpos.ne').trans h

/-- Below the values whose offset wraps around, buckets ascend with values. -/
theorem histIndex_mono {u v : UInt64} (huv : u ≤ v) (hv : v.toNat < 2 ^ 58) :
  histIndex u ≤ histIndex v
  := by
  by_cases hu : u = 0
  · subst hu
    apply Nat.zero_le
  have hle := UInt64.le_iff_toNat_le.mp huv
  have hv0 : v ≠ 0 := by
    rintro rfl
    apply hu
    apply UInt64.toNat_inj.mp (Nat.le_zero.mp hle)
  rw [histIndex_of_lt hu (by omega), histIndex_of_lt hv0 hv]
  rcases (octaveOf_mono hle).lt_or_eq with hlt | heq
  · have hcap := Nat.min_le_right
      ((u.toNat - 2 ^ octaveOf u.toNat) * 64 / 2 ^ octaveOf u.toNat) 63
    calc octaveOf u.toNat * 64
          + min ((u.toNat - 2 ^ octaveOf u.toNat) * 64 / 2 ^ octaveOf u.toNat) 63
        ≤ octaveOf v.toNat * 64 := by omega
      _ ≤ _ := Nat.le_add_right _ _
  · rw [heq]
    apply Nat.add_le_add_left
    apply min_le_min_right
    apply Nat.div_le_div_right
    omega

/-- The buckets below the top octave, and the top octave as one, ascend with values. -/
theorem min_histIndex_mono {u v : UInt64} (huv : u ≤ v) :
  min (histIndex u) (39 * 64) ≤ min (histIndex v) (39 * 64)
  := by
  by_cases hv : v.toNat < 2 ^ 39
  · apply min_le_min_right
    apply histIndex_mono huv
    omega
  · rw [min_eq_right (le_histIndex_of_top (not_lt.mp hv))]
    apply min_le_right

/-! ## The value of a bucket -/

/-- The width of a slot in the octave `k`. -/
def slotWidth (k : ℕ) : ℕ := max 1 (2 ^ k / 64)

/-- The value a bucket stands for: the base of its octave, the offset of its slot and half
a slot. -/
theorem toNat_histValueAt {idx : ℕ} (h : idx < histBuckets) :
  (histValueAt idx).toNat
    = 2 ^ (idx / 64) + idx % 64 * slotWidth (idx / 64) + slotWidth (idx / 64) / 2
  := by
  have hoct : idx / 64 ≤ 39 := by
    rw [histBuckets, histSub, histOct] at h
    omega
  have hslot : idx % 64 < 64 := Nat.mod_lt _ (by omega)
  rw [histValueAt, histSub]
  generalize idx / 64 = k at hoct ⊢
  generalize idx % 64 = slot at hslot ⊢
  have hbase : ((1 : UInt64) <<< k.toUInt64).toNat = 2 ^ k := toNat_one_shiftLeft (by omega)
  have hpow : 2 ^ k ≤ 2 ^ 39 := Nat.pow_le_pow_right (by omega) hoct
  have hwidth : (if (1 : UInt64) <<< k.toUInt64 / Nat.toUInt64 64 = 0 then 1
      else (1 : UInt64) <<< k.toUInt64 / Nat.toUInt64 64).toNat = slotWidth k := by
    have hdiv : ((1 : UInt64) <<< k.toUInt64 / Nat.toUInt64 64).toNat = 2 ^ k / 64 := by
      rw [UInt64.toNat_div, hbase]
      rfl
    rw [slotWidth, ← hdiv]
    split_ifs with h0
    · rw [h0]
      rfl
    · have hne : ((1 : UInt64) <<< k.toUInt64 / Nat.toUInt64 64).toNat ≠ 0 := by
        intro heq
        apply h0
        apply UInt64.toNat_inj.mp heq
      omega
  have hle : slotWidth k ≤ 2 ^ 33 := by
    rw [slotWidth]
    omega
  have hmul : slot * slotWidth k ≤ 63 * 2 ^ 33 := Nat.mul_le_mul (by omega) hle
  have hcast : slot.toUInt64.toNat = slot := by
    rw [Nat.toUInt64, UInt64.toNat_ofNat']
    omega
  have htwo : (2 : UInt64).toNat = 2 := rfl
  simp only [UInt64.toNat_add, UInt64.toNat_mul, UInt64.toNat_div, hbase, hwidth, hcast, htwo]
  rw [Nat.mod_eq_of_lt (show slot * slotWidth k < 2 ^ 64 by omega), Nat.mod_eq_of_lt,
    Nat.mod_eq_of_lt]
  · omega
  · rw [Nat.mod_eq_of_lt] <;> omega

/-- In a wide octave the slots divide the octave. -/
theorem slotWidth_mul {k : ℕ} (hk : 6 ≤ k) :
  slotWidth k * 64 = 2 ^ k
  := by
  obtain ⟨d, rfl⟩ := Nat.exists_eq_add_of_le hk
  have hpos := Nat.two_pow_pos d
  rw [slotWidth, Nat.pow_add]
  omega

/-- A bucket of a wide octave stands for a value of the octave. -/
theorem histValueAt_wide {idx : ℕ} (h : idx < histBuckets) (hwide : 6 * 64 ≤ idx) :
  2 ^ (idx / 64) ≤ (histValueAt idx).toNat ∧ (histValueAt idx).toNat < 2 * 2 ^ (idx / 64)
  := by
  rw [toNat_histValueAt h]
  have hmul : slotWidth (idx / 64) * 64 = 2 ^ (idx / 64) := slotWidth_mul (by omega)
  have hslot : idx % 64 * slotWidth (idx / 64) ≤ 63 * slotWidth (idx / 64) := by
    apply Nat.mul_le_mul_right
    omega
  have hpos : 1 ≤ slotWidth (idx / 64) := le_max_left _ _
  omega

/-- In the wide octaves values ascend with buckets. -/
theorem histValueAt_mono {i j : ℕ} (hj : j < histBuckets) (hwide : 6 * 64 ≤ i) (hij : i ≤ j) :
  (histValueAt i).toNat ≤ (histValueAt j).toNat
  := by
  have hi : i < histBuckets := lt_of_le_of_lt hij hj
  rcases (Nat.div_le_div_right (c := 64) hij).lt_or_eq with hlt | heq
  · have hpow : 2 * 2 ^ (i / 64) ≤ 2 ^ (j / 64) := by
      rw [← Nat.pow_succ']
      apply Nat.pow_le_pow_right (by omega) hlt
    have hvi := histValueAt_wide hi hwide
    have hvj := histValueAt_wide hj (by omega)
    omega
  · rw [toNat_histValueAt hi, toNat_histValueAt hj, heq]
    apply Nat.add_le_add_right
    apply Nat.add_le_add_left
    apply Nat.mul_le_mul_right
    omega

/-- In a wide octave the value of a bucket is at most the 64th part of a sample away from
the samples in it. -/
theorem histValueAt_near {v : UInt64} (hwide : 64 ≤ v.toNat) (htop : v.toNat < 2 ^ 40) :
  (histValueAt (histIndex v)).toNat ≤ v.toNat + v.toNat / 64 ∧
    v.toNat ≤ (histValueAt (histIndex v)).toNat + v.toNat / 64
  := by
  have hv : v ≠ 0 := by
    rintro rfl
    simp at hwide
  have hindex := histIndex_of_lt_top hv htop
  have hle := two_pow_octaveOf_le (w := v.toNat) (by omega)
  have hlt := lt_two_pow_octaveOf htop
  have hoct : 6 ≤ octaveOf v.toNat := by
    rw [octaveOf, le_min_iff]
    constructor
    · apply (Nat.le_log2 (by omega)).mpr hwide
    · omega
  rw [toNat_histValueAt (histIndex_lt v)]
  generalize v.toNat = w at *
  generalize octaveOf w = k at *
  have hmul := slotWidth_mul hoct
  have hpos : 0 < slotWidth k := Nat.lt_of_lt_of_le Nat.one_pos (le_max_left _ _)
  have hslot : (w - 2 ^ k) * 64 / 2 ^ k = (w - 2 ^ k) / slotWidth k := by
    rw [← hmul, Nat.mul_div_mul_right _ _ (by omega)]
  have hslot64 : (w - 2 ^ k) / slotWidth k < 64 := by
    apply Nat.div_lt_of_lt_mul
    omega
  have hsplit := Nat.div_add_mod' (w - 2 ^ k) (slotWidth k)
  have hrem := Nat.mod_lt (w - 2 ^ k) hpos
  rw [hslot] at hindex
  generalize (w - 2 ^ k) / slotWidth k = slot at *
  have hdiv : histIndex v / 64 = k := by omega
  have hmod : histIndex v % 64 = slot := by omega
  rw [hdiv, hmod]
  omega

/-! ## The narrow octaves -/

/-- The value a bucket shows for a sample: below `64` the offset of the sample in its octave
is stretched to the slots of the octave. -/
def stretched (w : ℕ) : ℕ :=
  if w = 0 then 1
  else if w < 64 then 2 ^ w.log2 + (w - 2 ^ w.log2) * (64 / 2 ^ w.log2)
  else w

/-- Below `128` a bucket stands for the stretched sample. -/
theorem histValueAt_stretched {v : UInt64} (h : v.toNat < 128) :
  (histValueAt (histIndex v)).toNat = stretched v.toNat
  := by
  by_cases hv : v = 0
  · subst hv
    decide
  have hne : v.toNat ≠ 0 := fun h0 => hv (UInt64.toNat_inj.mp h0)
  have hlog : v.toNat.log2 < 7 := (Nat.log2_lt hne).mpr h
  have hoct : octaveOf v.toNat = v.toNat.log2 := by
    rw [octaveOf]
    omega
  have hindex := histIndex_of_lt_top hv (h.trans (by norm_num))
  have hlt := lt_two_pow_octaveOf (h.trans (by norm_num))
  have hle := Nat.log2_self_le hne
  have hpos := Nat.two_pow_pos v.toNat.log2
  rw [hoct] at hindex hlt
  have hdvd : 2 ^ v.toNat.log2 ∣ 64 := by
    apply pow_dvd_pow 2 (show v.toNat.log2 ≤ 6 by omega)
  have hslot : (v.toNat - 2 ^ v.toNat.log2) * 64 / 2 ^ v.toNat.log2
      = (v.toNat - 2 ^ v.toNat.log2) * (64 / 2 ^ v.toNat.log2) := Nat.mul_div_assoc _ hdvd
  have hslot64 : (v.toNat - 2 ^ v.toNat.log2) * 64 / 2 ^ v.toNat.log2 < 64 := by
    apply Nat.div_lt_of_lt_mul
    omega
  have hdiv : histIndex v / 64 = v.toNat.log2 := by omega
  have hmod : histIndex v % 64
      = (v.toNat - 2 ^ v.toNat.log2) * (64 / 2 ^ v.toNat.log2) := by omega
  have hwidth : slotWidth v.toNat.log2 = 1 := by
    have hpow : 2 ^ v.toNat.log2 ≤ 2 ^ 6 := Nat.pow_le_pow_right (by omega) (by omega)
    rw [slotWidth]
    omega
  rw [toNat_histValueAt (histIndex_lt v), hdiv, hmod, hwidth, stretched, if_neg hne]
  split_ifs with hnarrow
  · omega
  · have hlog6 : v.toNat.log2 = 6 := by
      have h6 := (Nat.le_log2 (k := 6) hne).mpr (by omega)
      omega
    rw [hlog6]
    omega

end Keybench
