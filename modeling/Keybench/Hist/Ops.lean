import Mathlib.Data.Fintype.Pi
import Mathlib.Data.Rat.Floor
import Mathlib.Data.UInt
import Mathlib.Logic.Function.Basic

/-!
# Latency histograms

The octaves and slots of a histogram, and the operations on it: `histReset`, `histRecord`,
`histMerge` and `histPercentile`.  Samples and their sum are 64-bit words.  Bucket and
sample counters are natural numbers, since they count calls one by one.  The argument of
`histPercentile` is a rational number, and the rank is computed from it exactly.
-/

namespace Keybench

/-- 64-bit words are ordered by their value. -/
instance wordOrder : LinearOrder UInt64 where
  le_refl _ := UInt64.le_refl _
  le_trans _ _ _ := UInt64.le_trans
  le_antisymm _ _ := UInt64.le_antisymm
  lt_iff_le_not_ge _ _ := by
    simp only [UInt64.lt_iff_toNat_lt, UInt64.le_iff_toNat_le]
    omega
  le_total _ _ := UInt64.le_total _ _
  toDecidableLE := inferInstance
  toDecidableEq := inferInstance
  toDecidableLT := inferInstance

/-- The slots of an octave. -/
def histSub : ℕ := 64

/-- The octaves of a histogram. -/
def histOct : ℕ := 40

/-- The buckets of a histogram. -/
def histBuckets : ℕ := histSub * histOct

/-- `UINT64_MAX`. -/
def uint64Max : UInt64 := 0xFFFFFFFFFFFFFFFF

/-- The leading zero bits of a nonzero word. -/
def clzll (v : UInt64) : ℕ := 63 - v.toNat.log2

/-- The bucket of a sample. -/
def histIndex (v : UInt64) : ℕ :=
  if v = 0 then 0
  else
    let oct := 63 - clzll v
    let oct := if oct ≥ histOct then histOct - 1 else oct
    let base := (1 : UInt64) <<< oct.toUInt64
    let slot := (v - base) * histSub.toUInt64 / base
    let slot := if slot ≥ histSub.toUInt64 then histSub.toUInt64 - 1 else slot
    oct * histSub + slot.toNat

/-- The value a bucket stands for. -/
def histValueAt (idx : ℕ) : UInt64 :=
  let oct := idx / histSub
  let slot := idx % histSub
  let base := (1 : UInt64) <<< oct.toUInt64
  let width := base / histSub.toUInt64
  let width := if width = 0 then 1 else width
  base + slot.toUInt64 * width + width / 2

/-- The octave is capped at the last one. -/
theorem capped_octave (oct : ℕ) :
  (if oct ≥ histOct then histOct - 1 else oct) = min oct 39
  := by
  rcases Nat.lt_or_ge oct histOct with h | h
  · rw [if_neg (not_le.mpr h), min_eq_left (Nat.le_of_lt_succ h)]
  · rw [if_pos h, min_eq_right (Nat.le_of_succ_le h)]
    rfl

/-- The bucket of a sample is one of the histogram's. -/
theorem histIndex_lt (v : UInt64) :
  histIndex v < histBuckets
  := by
  have hcap : ∀ slot : UInt64,
      (if slot ≥ histSub.toUInt64 then histSub.toUInt64 - 1 else slot).toNat < 64 := by
    intro slot
    split_ifs with h
    · decide
    · rw [ge_iff_le, UInt64.le_iff_toNat_le] at h
      apply not_le.mp h
  rw [histIndex]
  split_ifs with h
  · decide
  · simp only [capped_octave]
    have hoct : min (63 - clzll v) 39 ≤ 39 := min_le_right _ _
    generalize min (63 - clzll v) 39 = oct at hoct ⊢
    have hslot := hcap ((v - 1 <<< oct.toUInt64) * histSub.toUInt64 / 1 <<< oct.toUInt64)
    generalize UInt64.toNat _ = slot at hslot ⊢
    rw [histBuckets, histSub, histOct]
    omega

/-- The bucket of a sample, as an index. -/
def histBucket (v : UInt64) : Fin histBuckets := ⟨histIndex v, histIndex_lt v⟩

/-- A histogram. -/
structure Hist where
  /-- The samples in each bucket. -/
  buckets : Fin histBuckets → ℕ
  /-- The number of samples. -/
  count : ℕ
  /-- The sum of the samples. -/
  sum : UInt64
  /-- The least sample. -/
  min : UInt64
  /-- The greatest sample. -/
  max : UInt64
deriving DecidableEq

/-- `hist_reset`. -/
def histReset : Hist where
  buckets _ := 0
  count := 0
  sum := 0
  min := uint64Max
  max := 0

/-- `hist_record`. -/
def histRecord (h : Hist) (value : UInt64) : Hist where
  buckets := Function.update h.buckets (histBucket value) (h.buckets (histBucket value) + 1)
  count := h.count + 1
  sum := h.sum + value
  min := if value < h.min then value else h.min
  max := if value > h.max then value else h.max

/-- `hist_merge`. -/
def histMerge (dst src : Hist) : Hist where
  buckets i := dst.buckets i + src.buckets i
  count := dst.count + src.count
  sum := dst.sum + src.sum
  min := if src.min < dst.min then src.min else dst.min
  max := if src.max > dst.max then src.max else dst.max

/-- A value kept between the least and the greatest sample. -/
def histClamp (h : Hist) (v : UInt64) : UInt64 :=
  let v := if v < h.min then h.min else v
  if v > h.max then h.max else v

/-- The loop of `hist_percentile` over the buckets. -/
def histScan (h : Hist) (target : ℕ) : List (Fin histBuckets) → ℕ → UInt64
  | [], _ => h.max
  | i :: is, cum =>
    let cum := cum + h.buckets i
    if cum ≥ target then histClamp h (histValueAt i) else histScan h target is cum

/-- The rank of a percentile among `count` samples, in exact arithmetic; `hist_percentile` computes
it in double. -/
def histTarget (p : ℚ) (count : ℕ) : ℕ :=
  let target := ⌊p / 100 * count + 1 / 2⌋₊
  if target = 0 then 1 else target

/-- `hist_percentile`. -/
def histPercentile (h : Hist) (p : ℚ) : UInt64 :=
  if h.count = 0 then 0
  else if p ≤ 0 then h.min
  else if p ≥ 100 then h.max
  else histScan h (histTarget p h.count) (List.finRange histBuckets) 0

end Keybench
