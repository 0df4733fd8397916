import Keybench.Hist.Buckets

/-!
# Values beyond the top octave

Values beyond the top octave belong into the last bucket, and `histIndex` caps the octave and
the slot for it.  But the product that the slot is computed from wraps around from
`2 ^ 39 + 2 ^ 58` on, before the slot is capped.  So the buckets of two values are in the
order of the values as long as the product fits (`histIndex_ordered_iff`).  Beyond, a value
that falls short of the last bucket stands below the values of the top octave
(`histIndex_max_iff`).
-/

namespace Keybench

/-- The base of the octave of a sample in `histIndex`. -/
def histBase (v : UInt64) : UInt64 :=
  let oct := 63 - clzll v
  let oct := if oct ≥ histOct then histOct - 1 else oct
  (1 : UInt64) <<< oct.toUInt64

/-- The product `(v - base) * HIST_SUB` of `histIndex` does not wrap around. -/
def SlotFits (v : UInt64) : Prop := v ≠ 0 → (v - histBase v).toNat * histSub < 2 ^ 64

/-- A value beyond the top octave falls into the last bucket. -/
def Saturates (v : UInt64) : Prop := 2 ^ histOct ≤ v.toNat → histIndex v = histBuckets - 1

theorem toNat_histBase {v : UInt64} (hv : v ≠ 0) :
  (histBase v).toNat = 2 ^ octaveOf v.toNat
  := by
  have hlog := log2_toNat_lt hv
  have hoct : min (63 - clzll v) 39 = octaveOf v.toNat := by
    rw [clzll, octaveOf]
    omega
  have hlt : octaveOf v.toNat < 64 := by
    rw [octaveOf]
    omega
  simp only [histBase, capped_octave, hoct]
  apply toNat_one_shiftLeft hlt

/-- From the base of the top octave on, values are in the top octave. -/
theorem octaveOf_top {w : ℕ} (h : 2 ^ 39 ≤ w) :
  octaveOf w = 39
  := by
  rw [octaveOf]
  apply min_eq_right
  apply (Nat.le_log2 (by omega)).mpr h

/-- The product fits in a word below `2 ^ 39 + 2 ^ 58`. -/
theorem slotFits_iff (v : UInt64) :
  SlotFits v ↔ v.toNat < 2 ^ 39 + 2 ^ 58
  := by
  rcases eq_or_ne v 0 with rfl | hv
  · apply iff_of_true
    · intro h
      apply absurd rfl h
    · decide
  have hne : v.toNat ≠ 0 := fun h => hv (UInt64.toNat_inj.mp h)
  have hle : histBase v ≤ v := by
    rw [UInt64.le_iff_toNat_le, toNat_histBase hv]
    apply two_pow_octaveOf_le hne
  have hfits : SlotFits v ↔ (v.toNat - 2 ^ octaveOf v.toNat) * 64 < 2 ^ 64 := by
    rw [SlotFits, UInt64.toNat_sub_of_le _ _ hle, toNat_histBase hv, histSub]
    apply forall_prop_of_true hv
  have hsub := Nat.sub_le v.toNat (2 ^ octaveOf v.toNat)
  rw [hfits]
  rcases Nat.lt_or_ge v.toNat (2 ^ 39) with hlow | htop
  · apply iff_of_true <;> omega
  · rw [octaveOf_top htop]
    omega

/-- The bucket of a value from the base of the top octave on. -/
theorem histIndex_top {v : UInt64} (h : 2 ^ 39 ≤ v.toNat) :
  histIndex v = 39 * 64 + min ((v.toNat - 2 ^ 39) % 2 ^ 58 / 2 ^ 33) 63
  := by
  have hv : v ≠ 0 := by
    rintro rfl
    simp at h
  rw [histIndex_eq hv, octaveOf_top h]
  omega

/-- Which values from the base of the top octave on fall into the last bucket. -/
theorem histIndex_last_iff {v : UInt64} (h : 2 ^ 39 ≤ v.toNat) :
  histIndex v = histBuckets - 1 ↔ 63 * 2 ^ 33 ≤ (v.toNat - 2 ^ 39) % 2 ^ 58
  := by
  rw [histIndex_top h, histBuckets, histSub, histOct]
  omega

/-- As long as the product fits, values beyond the top octave saturate. -/
theorem saturates_of_lt {v : UInt64} (h : v.toNat < 2 ^ 39 + 2 ^ 58) :
  Saturates v
  := by
  intro htop
  rw [histOct] at htop
  rw [histIndex_last_iff (by omega)]
  omega

/-- As long as the product fits, buckets ascend with values. -/
theorem histIndex_mono_of_fits {u v : UInt64} (huv : u ≤ v) (hv : v.toNat < 2 ^ 39 + 2 ^ 58) :
  histIndex u ≤ histIndex v
  := by
  rcases Nat.lt_or_ge v.toNat (2 ^ 40) with hlow | htop
  · apply histIndex_mono huv
    omega
  · rw [saturates_of_lt hv htop]
    apply Nat.le_pred_of_lt (histIndex_lt u)

/-- The buckets of two values are in the order of the values, without the product wrapping
around and with values beyond the top octave in the last bucket, exactly when the greater
value is below `2 ^ 39 + 2 ^ 58`. -/
theorem histIndex_ordered_iff (u v : UInt64) (huv : u ≤ v) :
  (histIndex u ≤ histIndex v ∧ SlotFits u ∧ SlotFits v ∧ Saturates u ∧ Saturates v)
    ↔ v.toNat < 2 ^ 39 + 2 ^ 58
  := by
  constructor
  · rintro ⟨-, -, hv, -⟩
    apply (slotFits_iff v).mp hv
  · intro hv
    have hle := UInt64.le_iff_toNat_le.mp huv
    have hu : u.toNat < 2 ^ 39 + 2 ^ 58 := by omega
    use histIndex_mono_of_fits huv hv, (slotFits_iff u).mpr hu, (slotFits_iff v).mpr hv,
      saturates_of_lt hu, saturates_of_lt hv

/-- Five milliseconds and ten minutes, in nanoseconds. -/
theorem histIndex_ordered_iff_example :
  (histIndex 5000000 ≤ histIndex 600000000000 ∧ SlotFits 5000000 ∧ SlotFits 600000000000 ∧
    Saturates 5000000 ∧ Saturates 600000000000) ↔ (600000000000 : UInt64).toNat < 2 ^ 39 + 2 ^ 58
  := histIndex_ordered_iff 5000000 600000000000 (by decide)

/-- The product of `2 ^ 39 + 2 ^ 58` wraps around to zero, so its bucket is the first of the
top octave and below the bucket of `2 ^ 40 - 1`. -/
theorem histIndex_not_ordered :
  ¬ ∀ u v : UInt64, u ≤ v →
    histIndex u ≤ histIndex v ∧ SlotFits u ∧ SlotFits v ∧ Saturates u ∧ Saturates v
  := by
  intro h
  obtain ⟨hle, -⟩ := h 0xFFFFFFFFFF 0x400008000000000 (by decide)
  revert hle
  decide

/-- Exactly the values of which the bucket is not below the bucket of any smaller value: those
below the end of the top octave, and those that fall into the last bucket. -/
theorem histIndex_max_iff (v : UInt64) :
  (∀ u ≤ v, histIndex u ≤ histIndex v)
    ↔ v.toNat < 2 ^ 40 ∨ 63 * 2 ^ 33 ≤ (v.toNat - 2 ^ 39) % 2 ^ 58
  := by
  rcases Nat.lt_or_ge v.toNat (2 ^ 40) with hlow | htop
  · apply iff_of_true
    · intro u huv
      apply histIndex_mono huv
      omega
    · left
      apply hlow
  have hlast := histIndex_last_iff (v := v) (by omega)
  rw [← hlast]
  constructor
  · intro h
    right
    -- the greatest value of the top octave is in the last bucket
    have hu : histIndex 0xFFFFFFFFFF = histBuckets - 1 := by decide
    have hle := h 0xFFFFFFFFFF (UInt64.le_iff_toNat_le.mpr (by
      have hnat : (0xFFFFFFFFFF : UInt64).toNat = 0xFFFFFFFFFF := rfl
      omega))
    have hlt := histIndex_lt v
    omega
  · rintro (hlow | hlast) u -
    · omega
    · rw [hlast]
      apply Nat.le_pred_of_lt (histIndex_lt u)

end Keybench
