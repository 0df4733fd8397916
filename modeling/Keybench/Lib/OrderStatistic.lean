import Mathlib.Algebra.GroupWithZero.Nat
import Mathlib.Algebra.Order.Field.Basic
import Mathlib.Data.List.Sort
import Mathlib.Order.Monotone.Defs
import Mathlib.Tactic.Use

/-!
# Order statistics and selection by counting

`orderStatistic xs r` is the `r`-th smallest element of `xs`, counted from one.  When the
elements are classified by a key, `tally` counts the elements of a class, and `select` adds
up the counts of the classes in ascending order until they reach `r`.  When the key is
monotone, `select` finds the class of the `r`-th smallest element (`select_eq_key`); when
it is monotone only after the classes are coarsened, `select` finds its coarse class
(`select_coarse`).

The first order statistic is the least element, the last one is the greatest, and the median is the
mean of the two in the middle (`IsMedian`).
-/

namespace OrderStatistic

variable {α ι κ : Type*}

section Order

variable [LinearOrder α]

/-- The `r`-th smallest element, counted from one. -/
def orderStatistic (xs : List α) (r : ℕ) : Option α :=
  (xs.mergeSort (· ≤ ·))[r - 1]?

/-- In a sorted list at most the first `i` elements are below the `i`-th. -/
theorem countP_lt_getElem_le {xs : List α} (h : xs.Pairwise (· ≤ ·)) {i : ℕ}
    (hi : i < xs.length) :
  xs.countP (· < xs[i]) ≤ i
  := by
  have hdrop : (xs.drop i).countP (· < xs[i]) = 0 := by
    apply List.countP_eq_zero.mpr
    intro x hx
    obtain ⟨j, hj, rfl⟩ := List.mem_iff_getElem.mp hx
    rw [List.getElem_drop, decide_eq_true_iff, not_lt]
    rcases Nat.eq_zero_or_pos j with rfl | hpos
    · apply le_refl
    · apply List.pairwise_iff_getElem.mp h
      omega
  calc xs.countP (· < xs[i])
      = (xs.take i ++ xs.drop i).countP (· < xs[i]) := by rw [List.take_append_drop]
    _ = (xs.take i).countP (· < xs[i]) := by rw [List.countP_append, hdrop, Nat.add_zero]
    _ ≤ (xs.take i).length := List.countP_le_length
    _ ≤ i := List.length_take_le i xs

/-- In a sorted list the elements up to the `i`-th are at most the `i`-th. -/
theorem lt_countP_le_getElem {xs : List α} (h : xs.Pairwise (· ≤ ·)) {i : ℕ}
    (hi : i < xs.length) :
  i < xs.countP (· ≤ xs[i])
  := by
  have htake : (xs.take (i + 1)).countP (· ≤ xs[i]) = (xs.take (i + 1)).length := by
    apply List.countP_eq_length.mpr
    intro x hx
    obtain ⟨j, hj, rfl⟩ := List.mem_iff_getElem.mp hx
    rw [List.length_take] at hj
    rw [List.getElem_take, decide_eq_true_iff]
    rcases Nat.lt_or_ge j i with hlt | hge
    · apply List.pairwise_iff_getElem.mp h _ _ _ _ hlt
    · have hji : j = i := by omega
      simp [hji]
  have hsub : (xs.take (i + 1)).countP (· ≤ xs[i]) ≤ xs.countP (· ≤ xs[i]) := by
    apply List.Sublist.countP_le
    apply List.take_sublist
  rw [htake, List.length_take] at hsub
  omega

/-- The order statistic of a rank from one to the length exists: fewer elements than the
rank are below it, and at least as many are at most it. -/
theorem orderStatistic_spec {xs : List α} {r : ℕ} (hpos : 0 < r) (hle : r ≤ xs.length) :
  ∃ v, orderStatistic xs r = some v ∧ v ∈ xs ∧ xs.countP (· < v) < r ∧ r ≤ xs.countP (· ≤ v)
  := by
  have hperm := List.mergeSort_perm xs (· ≤ ·)
  have hsorted : (xs.mergeSort (· ≤ ·)).Pairwise (· ≤ ·) := List.pairwise_mergeSort' _ _
  have hlen : r - 1 < (xs.mergeSort (· ≤ ·)).length := by
    rw [hperm.length_eq]
    omega
  use (xs.mergeSort (· ≤ ·))[r - 1]
  and_intros
  · apply List.getElem?_eq_getElem
  · apply hperm.mem_iff.mp
    apply List.getElem_mem
  · have h := countP_lt_getElem_le hsorted hlen
    rw [hperm.countP_eq] at h
    omega
  · have h := lt_countP_le_getElem hsorted hlen
    rw [hperm.countP_eq] at h
    omega

/-- The counts around an order statistic. -/
theorem counts_of_orderStatistic {xs : List α} {r : ℕ} {v : α} (hpos : 0 < r)
    (h : orderStatistic xs r = some v) :
  v ∈ xs ∧ xs.countP (· < v) < r ∧ r ≤ xs.countP (· ≤ v)
  := by
  have hlen : r - 1 < (xs.mergeSort (· ≤ ·)).length := (List.getElem?_eq_some_iff.mp h).1
  rw [List.length_mergeSort] at hlen
  obtain ⟨w, hw, hspec⟩ := orderStatistic_spec hpos (show r ≤ xs.length by omega)
  rw [h] at hw
  obtain rfl := Option.some.inj hw
  apply hspec

/-- Order statistics ascend with their ranks. -/
theorem orderStatistic_mono {xs : List α} {r s : ℕ} {u v : α} (hpos : 0 < r) (hrs : r ≤ s)
    (hu : orderStatistic xs r = some u) (hv : orderStatistic xs s = some v) :
  u ≤ v
  := by
  obtain ⟨-, hlt, -⟩ := counts_of_orderStatistic hpos hu
  obtain ⟨-, -, hle⟩ := counts_of_orderStatistic (by omega) hv
  by_contra hvu
  have hsub : xs.countP (· ≤ v) ≤ xs.countP (· < u) := by
    apply List.countP_mono_left
    intro x _ hx
    rw [decide_eq_true_iff] at hx ⊢
    apply lt_of_le_of_lt hx (not_le.mp hvu)
  omega

/-- The order of the elements does not matter. -/
theorem mergeSort_eq_of_perm {xs ys : List α} (h : xs.Perm ys) :
  xs.mergeSort (· ≤ ·) = ys.mergeSort (· ≤ ·)
  := by
  apply List.Perm.eq_of_pairwise' (r := fun x y : α => x ≤ y) (List.pairwise_mergeSort' _ xs)
    (List.pairwise_mergeSort' _ ys)
  apply ((List.mergeSort_perm xs _).trans h).trans (List.mergeSort_perm ys _).symm

/-- The first order statistic is the least element. -/
theorem isLeast_of_orderStatistic {xs : List α} {v : α} (h : orderStatistic xs 1 = some v) :
  IsLeast {x | x ∈ xs} v
  := by
  obtain ⟨hmem, hlt, -⟩ := counts_of_orderStatistic Nat.one_pos h
  constructor
  · apply hmem
  · intro x hx
    have hnone := List.countP_eq_zero.mp (Nat.lt_one_iff.mp hlt) x hx
    simpa using hnone

/-- The last order statistic is the greatest element. -/
theorem isGreatest_of_orderStatistic {xs : List α} {v : α} (hne : xs ≠ [])
    (h : orderStatistic xs xs.length = some v) :
  IsGreatest {x | x ∈ xs} v
  := by
  obtain ⟨hmem, -, hle⟩ := counts_of_orderStatistic (List.length_pos_of_ne_nil hne) h
  constructor
  · apply hmem
  · intro x hx
    have hall := List.countP_eq_length.mp (le_antisymm List.countP_le_length hle) x hx
    simpa using hall

end Order

/-! ## Medians -/

section Median

variable {K : Type*} [Field K] [LinearOrder K]

/-- The mean of the two elements in the middle, which are one when the number of elements is
odd. -/
def IsMedian (xs : List K) (m : K) : Prop :=
  ∃ a b, orderStatistic xs ((xs.length + 1) / 2) = some a ∧
    orderStatistic xs (xs.length / 2 + 1) = some b ∧ m = (a + b) / 2

/-- The median is between the bounds of the elements. -/
theorem IsMedian.mem_Icc [IsStrictOrderedRing K] {xs : List K} {m lo hi : K} (h : IsMedian xs m)
    (hne : xs ≠ []) (hlo : ∀ x ∈ xs, lo ≤ x) (hhi : ∀ x ∈ xs, x ≤ hi) :
  m ∈ Set.Icc lo hi
  := by
  obtain ⟨a, b, ha, hb, rfl⟩ := h
  have hpos := List.length_pos_of_ne_nil hne
  have ha' := (counts_of_orderStatistic (by omega) ha).1
  have hb' := (counts_of_orderStatistic (by omega) hb).1
  constructor
  · rw [le_div_iff₀ two_pos, mul_two]
    apply add_le_add (hlo a ha') (hlo b hb')
  · rw [div_le_iff₀ two_pos, mul_two]
    apply add_le_add (hhi a ha') (hhi b hb')

end Median

/-! ## Selection -/

/-- Add up the weights of the classes in order, from `cum` on, until they reach the
target. -/
def select (w : ι → ℕ) (target : ℕ) : List ι → ℕ → Option ι
  | [], _ => none
  | i :: is, cum => if target ≤ cum + w i then some i else select w target is (cum + w i)

/-- The class `select` finds is the one whose weight reaches the target. -/
theorem select_eq_some {w : ι → ℕ} {target : ℕ} :
  ∀ {is : List ι} {cum : ℕ} {i : ι}, cum < target → select w target is cum = some i →
    ∃ pre post, is = pre ++ i :: post ∧ cum + (pre.map w).sum < target ∧
      target ≤ cum + (pre.map w).sum + w i
  | [], cum, i, hcum, h => by simp [select] at h
  | j :: is, cum, i, hcum, h => by
    rw [select] at h
    by_cases hj : target ≤ cum + w j
    · rw [if_pos hj] at h
      obtain rfl := Option.some.inj h
      use [], is
      simpa using ⟨hcum, hj⟩
    · rw [if_neg hj] at h
      obtain ⟨pre, post, rfl, hlt, hle⟩ := select_eq_some (not_le.mp hj) h
      use j :: pre, post
      rw [List.map_cons, List.sum_cons]
      and_intros
      · rfl
      · omega
      · omega

/-- When `select` finds no class, all the weights stay below the target. -/
theorem select_eq_none {w : ι → ℕ} {target : ℕ} :
  ∀ {is : List ι} {cum : ℕ}, cum < target → select w target is cum = none →
    cum + (is.map w).sum < target
  | [], cum, hcum, h => by simpa using hcum
  | j :: is, cum, hcum, h => by
    rw [select] at h
    by_cases hj : target ≤ cum + w j
    · simp [hj] at h
    · rw [if_neg hj] at h
      have hrest := select_eq_none (not_le.mp hj) h
      simp only [List.map_cons, List.sum_cons]
      omega

/-- A greater target is reached at the same class or a later one. -/
theorem select_mono [Preorder ι] {w : ι → ℕ} {s t : ℕ} (hst : s ≤ t) :
  ∀ {is : List ι} {cum : ℕ} {i j : ι}, is.Pairwise (· < ·) → select w s is cum = some i →
    select w t is cum = some j → i ≤ j
  | [], cum, i, j, his, hi, hj => by simp [select] at hi
  | k :: is, cum, i, j, his, hi, hj => by
    have hmem : ∀ {is : List ι} {cum : ℕ} {j : ι}, select w t is cum = some j → j ∈ is := by
      intro is
      induction is with
      | nil => simp [select]
      | cons a is ih =>
        intro cum j h
        rw [select] at h
        split at h
        · simp_all
        · apply List.mem_cons_of_mem _ (ih h)
    rw [select] at hi hj
    by_cases hs : s ≤ cum + w k
    · rw [if_pos hs] at hi
      obtain rfl := Option.some.inj hi
      by_cases ht : t ≤ cum + w k
      · rw [if_pos ht] at hj
        obtain rfl := Option.some.inj hj
        apply le_refl
      · rw [if_neg ht] at hj
        apply le_of_lt ((List.pairwise_cons.mp his).1 j (hmem hj))
    · rw [if_neg hs] at hi
      rw [if_neg (by omega)] at hj
      apply select_mono hst (List.pairwise_cons.mp his).2 hi hj

/-! ## Selection among tallied classes -/

/-- How many elements have the key `i`. -/
def tally [DecidableEq ι] (key : α → ι) (xs : List α) (i : ι) : ℕ :=
  xs.countP (fun x => key x = i)

/-- The tallies of distinct classes add up to the elements in one of them. -/
theorem sum_tally [DecidableEq ι] (key : α → ι) (xs : List α) :
  ∀ {is : List ι}, is.Nodup →
    (is.map (tally key xs)).sum = xs.countP (fun x => key x ∈ is)
  | [], _ => by simp
  | i :: is, h => by
    obtain ⟨hi, his⟩ := List.nodup_cons.mp h
    rw [List.map_cons, List.sum_cons, sum_tally key xs his, tally]
    clear h his
    induction xs with
    | nil => rfl
    | cons x xs ih =>
      simp only [List.countP_cons, List.mem_cons, decide_eq_true_iff] at ih ⊢
      by_cases hx : key x = i
      · subst hx
        simp only [hi, if_true, if_false, true_or]
        omega
      · simp only [hx, if_false, false_or]
        omega

section Classes

variable [LinearOrder ι] {key : α → ι} {xs : List α} {is : List ι}

/-- The elements of a class or an earlier one. -/
theorem countP_key_le (key : α → ι) (i : ι) :
  ∀ xs : List α,
    xs.countP (fun x => key x ≤ i) = xs.countP (fun x => key x < i) + tally key xs i
  | [] => rfl
  | x :: xs => by
    have ih := countP_key_le key i xs
    simp only [tally, List.countP_cons, decide_eq_true_iff] at ih ⊢
    rcases lt_trichotomy (key x) i with hx | hx | hx
    · simp only [hx, hx.ne, hx.le, if_true, if_false]
      omega
    · simp only [hx, lt_irrefl, le_refl, if_true, if_false]
      omega
    · simp only [hx.ne', not_lt.mpr hx.le, not_le.mpr hx, if_false]
      omega

/-- The counts around the class `select` finds. -/
theorem counts_of_select (his : is.Pairwise (· < ·)) (hall : ∀ x ∈ xs, key x ∈ is) {r : ℕ}
    {i : ι} (hpos : 0 < r) (h : select (tally key xs) r is 0 = some i) :
  xs.countP (fun x => key x < i) < r ∧ r ≤ xs.countP (fun x => key x ≤ i)
  := by
  obtain ⟨pre, post, rfl, hlt, hle⟩ := select_eq_some hpos h
  obtain ⟨hpre, hpost, hcross⟩ := List.pairwise_append.mp his
  have hnodup : pre.Nodup := hpre.imp ne_of_lt
  rw [Nat.zero_add, sum_tally key xs hnodup] at hlt hle
  have hmem : ∀ x ∈ xs, (key x ∈ pre ↔ key x < i) := by
    intro x hx
    constructor
    · intro hk
      apply hcross _ hk _ List.mem_cons_self
    · intro hk
      rcases List.mem_append.mp (hall x hx) with hk' | hk'
      · apply hk'
      · rcases List.mem_cons.mp hk' with heq | hk'
        · apply absurd hk (heq ▸ lt_irrefl _)
        · apply absurd hk (lt_asymm ((List.pairwise_cons.mp hpost).1 _ hk'))
  have hcount : xs.countP (fun x => key x ∈ pre) = xs.countP (fun x => key x < i) := by
    apply List.countP_congr
    intro x hx
    simp only [decide_eq_true_iff]
    apply hmem x hx
  rw [hcount] at hlt hle
  rw [countP_key_le key i xs]
  exact ⟨hlt, hle⟩

/-- A rank from one to the length is reached. -/
theorem exists_select (his : is.Pairwise (· < ·)) (hall : ∀ x ∈ xs, key x ∈ is) {r : ℕ}
    (hpos : 0 < r) (hle : r ≤ xs.length) :
  ∃ i, select (tally key xs) r is 0 = some i
  := by
  cases h : select (tally key xs) r is 0 with
  | some i => use i
  | none =>
    have hlt := select_eq_none hpos h
    rw [sum_tally key xs (his.imp ne_of_lt)] at hlt
    have hcount : xs.countP (fun x => key x ∈ is) = xs.length := by
      apply List.countP_eq_length.mpr
      intro x hx
      simpa using hall x hx
    omega

variable [LinearOrder α] [LinearOrder κ]

/-- When the key becomes monotone after `c` coarsens the classes, `select` finds the coarse
class of the order statistic. -/
theorem select_coarse {c : ι → κ} (hc : Monotone c)
    (hmono : ∀ x ∈ xs, ∀ y ∈ xs, x ≤ y → c (key x) ≤ c (key y)) (his : is.Pairwise (· < ·))
    (hall : ∀ x ∈ xs, key x ∈ is) {r : ℕ} {v : α} {i : ι} (hpos : 0 < r)
    (hv : orderStatistic xs r = some v) (hi : select (tally key xs) r is 0 = some i) :
  c i = c (key v)
  := by
  obtain ⟨hmem, hvlt, hvle⟩ := counts_of_orderStatistic hpos hv
  obtain ⟨hilt, hile⟩ := counts_of_select his hall hpos hi
  apply le_antisymm
  · by_contra hlt
    have hsub : xs.countP (· ≤ v) ≤ xs.countP (fun x => key x < i) := by
      apply List.countP_mono_left
      intro x hx hxv
      rw [decide_eq_true_iff] at hxv ⊢
      by_contra hxi
      apply hlt
      calc c i ≤ c (key x) := hc (not_lt.mp hxi)
        _ ≤ c (key v) := hmono x hx v hmem hxv
    omega
  · by_contra hlt
    have hsub : xs.countP (fun x => key x ≤ i) ≤ xs.countP (· < v) := by
      apply List.countP_mono_left
      intro x hx hxi
      rw [decide_eq_true_iff] at hxi ⊢
      by_contra hxv
      apply hlt
      calc c (key v) ≤ c (key x) := hmono v hmem x hx (not_lt.mp hxv)
        _ ≤ c i := hc hxi
    omega

/-- When the key is monotone, `select` finds the class of the order statistic. -/
theorem select_eq_key (hmono : ∀ x ∈ xs, ∀ y ∈ xs, x ≤ y → key x ≤ key y)
    (his : is.Pairwise (· < ·)) (hall : ∀ x ∈ xs, key x ∈ is) {r : ℕ} {v : α} {i : ι}
    (hpos : 0 < r) (hv : orderStatistic xs r = some v)
    (hi : select (tally key xs) r is 0 = some i) :
  i = key v
  := select_coarse monotone_id hmono his hall hpos hv hi

end Classes

end OrderStatistic
