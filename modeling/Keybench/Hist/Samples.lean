import Keybench.Hist.Ops
import Keybench.Lib.OrderStatistic

/-!
# Histograms of samples

`histOf xs` is the histogram that holds the samples `xs`.  Resetting, recording and merging
histograms are the empty list, an added sample and concatenation of lists of samples
(`histReset_eq`, `histRecord_histOf`, `histMerge_histOf`), and the order of the samples
does not matter (`histOf_perm`).  `HistReached` are the histograms a run can make, and they
are the histograms of their samples.
-/

namespace Keybench

open OrderStatistic

/-- The histogram of a list of samples. -/
def histOf (xs : List UInt64) : Hist where
  buckets := tally histBucket xs
  count := xs.length
  sum := xs.sum
  min := xs.foldr min uint64Max
  max := xs.foldr max 0

@[simp]
theorem histOf_buckets (xs : List UInt64) :
  (histOf xs).buckets = tally histBucket xs
  := rfl

@[simp]
theorem histOf_count (xs : List UInt64) :
  (histOf xs).count = xs.length
  := rfl

/-! ## Least and greatest samples -/

theorem le_uint64Max (v : UInt64) :
  v ≤ uint64Max
  := by
  rw [UInt64.le_iff_toNat_le]
  apply Nat.le_of_lt_succ v.toNat_lt

theorem uint64_zero_le (v : UInt64) :
  0 ≤ v
  := UInt64.le_iff_toNat_le.mpr (Nat.zero_le _)

theorem ite_lt_eq_min (a b : UInt64) :
  (if a < b then a else b) = min a b
  := by
  split_ifs with h
  · rw [min_eq_left h.le]
  · rw [min_eq_right (not_lt.mp h)]

theorem ite_gt_eq_max (a b : UInt64) :
  (if a > b then a else b) = max a b
  := by
  split_ifs with h
  · rw [max_eq_left h.le]
  · rw [max_eq_right (not_lt.mp h)]

theorem foldr_min_append (xs ys : List UInt64) :
  (xs ++ ys).foldr min uint64Max = min (xs.foldr min uint64Max) (ys.foldr min uint64Max)
  := by
  induction xs with
  | nil => rw [List.nil_append, List.foldr_nil, min_eq_right (le_uint64Max _)]
  | cons x xs ih => rw [List.cons_append, List.foldr_cons, ih, List.foldr_cons, min_assoc]

theorem foldr_max_append (xs ys : List UInt64) :
  (xs ++ ys).foldr max 0 = max (xs.foldr max 0) (ys.foldr max 0)
  := by
  induction xs with
  | nil => rw [List.nil_append, List.foldr_nil, max_eq_right (uint64_zero_le _)]
  | cons x xs ih => rw [List.cons_append, List.foldr_cons, ih, List.foldr_cons, max_assoc]

/-- The least sample is at most every sample. -/
theorem histOf_min_le {xs : List UInt64} :
  ∀ v ∈ xs, (histOf xs).min ≤ v
  := by
  induction xs with
  | nil => simp
  | cons x xs ih =>
    intro v hv
    rcases List.mem_cons.mp hv with rfl | hv
    · apply min_le_left
    · apply (min_le_right _ _).trans (ih v hv)

/-- The greatest sample is at least every sample. -/
theorem le_histOf_max {xs : List UInt64} :
  ∀ v ∈ xs, v ≤ (histOf xs).max
  := by
  induction xs with
  | nil => simp
  | cons x xs ih =>
    intro v hv
    rcases List.mem_cons.mp hv with rfl | hv
    · apply le_max_left
    · apply (ih v hv).trans (le_max_right _ _)

/-- The greatest sample is at most a bound of the samples. -/
theorem histOf_max_le_iff {xs : List UInt64} {b : UInt64} :
  (histOf xs).max ≤ b ↔ ∀ v ∈ xs, v ≤ b
  := by
  constructor
  · intro h v hv
    apply (le_histOf_max v hv).trans h
  · induction xs with
    | nil =>
      intro _
      apply uint64_zero_le
    | cons x xs ih =>
      intro h
      apply max_le (h x List.mem_cons_self)
      apply ih fun v hv => h v (List.mem_cons_of_mem _ hv)

/-! ## The operations -/

theorem histReset_eq :
  histReset = histOf []
  := rfl

/-- Recording adds a sample. -/
theorem histRecord_histOf (xs : List UInt64) (v : UInt64) :
  histRecord (histOf xs) v = histOf (v :: xs)
  := by
  simp only [histRecord, ite_lt_eq_min, ite_gt_eq_max]
  simp only [histOf, List.length_cons, List.sum_cons, List.foldr_cons, Hist.mk.injEq, and_true,
    true_and]
  constructor
  · funext i
    rw [Function.update_apply, tally, tally, tally, List.countP_cons]
    by_cases h : i = histBucket v
    · simp [h]
    · simp [h, Ne.symm h]
  · apply UInt64.add_comm

/-- Merging concatenates the samples. -/
theorem histMerge_histOf (xs ys : List UInt64) :
  histMerge (histOf xs) (histOf ys) = histOf (xs ++ ys)
  := by
  simp only [histMerge, ite_lt_eq_min, ite_gt_eq_max]
  simp only [histOf, Hist.mk.injEq]
  and_intros
  · funext i
    rw [tally, tally, tally, List.countP_append]
  · rw [List.length_append]
  · rw [List.sum_append]
  · rw [foldr_min_append, min_comm]
  · rw [foldr_max_append, max_comm]

/-- The order of the samples does not matter. -/
theorem histOf_perm {xs ys : List UInt64} (h : xs.Perm ys) :
  histOf xs = histOf ys
  := by
  simp only [histOf, Hist.mk.injEq]
  and_intros
  · funext i
    apply h.countP_eq
  · apply h.length_eq
  · apply h.sum_eq
  · apply h.foldr_eq
  · apply h.foldr_eq

/-- Recording a list of samples. -/
theorem foldl_histRecord (xs ys : List UInt64) :
  xs.foldl histRecord (histOf ys) = histOf (xs ++ ys)
  := by
  induction xs generalizing ys with
  | nil => rfl
  | cons x xs ih =>
    rw [List.foldl_cons, histRecord_histOf, ih]
    apply histOf_perm
    apply List.perm_middle

/-- The samples recorded into a freshly reset histogram. -/
theorem foldl_histRecord_histReset (xs : List UInt64) :
  xs.foldl histRecord histReset = histOf xs
  := by
  rw [histReset_eq, foldl_histRecord, List.append_nil]

/-! ## Runs -/

/-- The histograms made from reset ones by recording and merging, with their samples. -/
inductive HistReached : List UInt64 → Hist → Prop where
  | reset : HistReached [] histReset
  | record {xs : List UInt64} {h : Hist} (v : UInt64) :
    HistReached xs h → HistReached (v :: xs) (histRecord h v)
  | merge {xs ys : List UInt64} {dst src : Hist} :
    HistReached xs dst → HistReached ys src → HistReached (xs ++ ys) (histMerge dst src)

/-- A histogram a run makes is the histogram of its samples. -/
theorem HistReached.eq_histOf {xs : List UInt64} {h : Hist} (hreached : HistReached xs h) :
  h = histOf xs
  := by
  induction hreached with
  | reset => rfl
  | record v _ ih => rw [ih, histRecord_histOf]
  | merge _ _ ihdst ihsrc => rw [ihdst, ihsrc, histMerge_histOf]

/-- The bucket totals add up to the number of samples. -/
theorem sum_buckets_histOf (xs : List UInt64) :
  ((List.finRange histBuckets).map (histOf xs).buckets).sum = (histOf xs).count
  := by
  have hmem : xs.countP (fun x => histBucket x ∈ List.finRange histBuckets) = xs.length := by
    apply List.countP_eq_length.mpr
    intro x _
    simp
  calc ((List.finRange histBuckets).map (tally histBucket xs)).sum
      = xs.countP (fun x => histBucket x ∈ List.finRange histBuckets) :=
        sum_tally histBucket xs (List.nodup_finRange histBuckets)
    _ = xs.length := hmem

end Keybench
