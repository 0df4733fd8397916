import Mathlib.Algebra.BigOperators.Fin
import Mathlib.Algebra.BigOperators.Intervals
import Mathlib.Algebra.Order.BigOperators.Group.Finset

/-!
# Polling

A poller adds up counters that others raise.  It reads them one after another while they go on
rising, so that what it finds in a turn need not have been their sum at any moment.  Still the sums
of its turns do not go back, and none of them is above the sum of the counters at its end
(`Polled.finish`, `Polled.base_le`).  So intervals that end at turns of the poller, and begin where
the one before has ended, cover what has been found once (`Tracked`), also when they are kept in 64
bits (`Tracked.reported`).
-/

namespace Polling

/-! ## Turns -/

section Turns

variable {n : ℕ} {c c' : Fin n → ℕ} {base k acc : ℕ}

/-- The first `k` counters. -/
def firsts (n k : ℕ) : Finset (Fin n) := Finset.univ.filter fun t => (t : ℕ) < k

theorem firsts_zero :
  firsts n 0 = ∅
  := Finset.filter_false_of_mem fun _ _ => Nat.not_lt_zero _

theorem firsts_succ (hk : k < n) :
  firsts n (k + 1) = insert ⟨k, hk⟩ (firsts n k)
  := by
  ext t
  simp only [firsts, Finset.mem_filter_univ, Finset.mem_insert, Fin.ext_iff]
  omega

theorem firsts_all (hk : n ≤ k) :
  firsts n k = Finset.univ
  := Finset.filter_true_of_mem fun t _ => t.isLt.trans_le hk

theorem not_mem_firsts (hk : k < n) :
  (⟨k, hk⟩ : Fin n) ∉ firsts n k
  := by
  simp [firsts]

/-- The last turn has found `base`, and the present one has found `acc` in the first `k`
counters. -/
def Polled (c : Fin n → ℕ) (base k acc : ℕ) : Prop :=
  ∃ old new : Fin n → ℕ, old ≤ new ∧ new ≤ c ∧ base = ∑ t, old t ∧ acc = ∑ t ∈ firsts n k, new t

/-- Before the first turn. -/
theorem Polled.start (c : Fin n → ℕ) :
  Polled c 0 0 0
  := by
  use 0, 0, le_refl 0, fun t => Nat.zero_le (c t)
  simp

/-- Counters are raised. -/
theorem Polled.raise (h : Polled c base k acc) (hc : c ≤ c') :
  Polled c' base k acc
  := by
  obtain ⟨old, new, hold, hnew, hsums⟩ := h
  exact ⟨old, new, hold, hnew.trans hc, hsums⟩

/-- The next counter is read. -/
theorem Polled.read (h : Polled c base k acc) (hk : k < n) :
  Polled c base (k + 1) (acc + c ⟨k, hk⟩)
  := by
  obtain ⟨old, new, hold, hnew, hbase, rfl⟩ := h
  -- The counter just read has what it has now, and the others have what they had.
  use old, Function.update new ⟨k, hk⟩ (c ⟨k, hk⟩)
  and_intros
  · apply hold.trans
    apply le_update_self_iff.mpr (hnew ⟨k, hk⟩)
  · apply update_le_iff.mpr
    exact ⟨le_refl _, fun t _ => hnew t⟩
  · apply hbase
  · rw [firsts_succ hk, Finset.sum_insert (not_mem_firsts hk), Function.update_self, Nat.add_comm]
    congr 1
    apply Finset.sum_congr rfl
    intro t ht
    rw [Function.update_of_ne]
    rintro rfl
    apply not_mem_firsts hk ht

/-- A turn is finished: it has not found less than the one before. -/
theorem Polled.finish (h : Polled c base k acc) (hk : n ≤ k) :
  base ≤ acc ∧ Polled c acc 0 0
  := by
  obtain ⟨old, new, hold, hnew, rfl, rfl⟩ := h
  rw [firsts_all hk]
  constructor
  · apply Finset.sum_le_sum fun t _ => hold t
  · use new, new, le_refl new, hnew, rfl
    rw [firsts_zero, Finset.sum_empty]

/-- What the last turn has found is not above the sum of the counters. -/
theorem Polled.base_le (h : Polled c base k acc) :
  base ≤ ∑ t, c t
  := by
  obtain ⟨old, new, hold, hnew, rfl, -⟩ := h
  apply Finset.sum_le_sum fun t _ => (hold t).trans (hnew t)

end Turns

/-! ## Intervals -/

/-- Intervals follow one another from zero to `last`, and none of them goes back. -/
inductive Covers : List (ℕ × ℕ) → ℕ → Prop
  | nil : Covers [] 0
  | snoc {xs : List (ℕ × ℕ)} {a b : ℕ} (h : Covers xs a) (hab : a ≤ b) : Covers (xs ++ [(a, b)]) b

/-- No interval goes back, or beyond the last one. -/
theorem Covers.le {xs : List (ℕ × ℕ)} {last : ℕ} (h : Covers xs last) :
  ∀ x ∈ xs, x.1 ≤ x.2 ∧ x.2 ≤ last
  := by
  induction h with
  | nil => simp
  | @snoc xs a b h hab ih =>
    intro x hx
    rcases List.mem_append.mp hx with hx | hx
    · exact ⟨(ih x hx).1, (ih x hx).2.trans hab⟩
    · obtain rfl := List.mem_singleton.mp hx
      exact ⟨hab, le_refl b⟩

/-- The lengths of the intervals add up to the end of the last one. -/
theorem Covers.sum {xs : List (ℕ × ℕ)} {last : ℕ} (h : Covers xs last) :
  (xs.map fun x => x.2 - x.1).sum = last
  := by
  induction h with
  | nil => rfl
  | snoc h hab ih =>
    rw [List.map_append, List.sum_append, ih, List.map_singleton, List.sum_singleton,
      Nat.add_sub_cancel' hab]

/-! ## A poller and its intervals -/

/-- A poller that keeps numbers as `f` does has found `cur` in the first `k` counters in its present
turn.  It has told the intervals `xs`, the last of which ends at `prev`. -/
def Tracked {n : ℕ} {α : Type*} (f : ℕ → α) (c : Fin n → ℕ) (xs : List (α × α)) (prev : α) (k : ℕ)
    (cur : α) : Prop :=
  ∃ ys last base acc, Covers ys last ∧ last ≤ base ∧ Polled c base k acc ∧
    xs = ys.map (fun x => (f x.1, f x.2)) ∧ prev = f last ∧ cur = f acc

section Tracked

variable {n : ℕ} {α : Type*} {f : ℕ → α} {c c' : Fin n → ℕ} {xs : List (α × α)} {prev cur : α}
  {k : ℕ}

/-- Before the first turn. -/
theorem Tracked.start (f : ℕ → α) (c : Fin n → ℕ) :
  Tracked f c [] (f 0) 0 (f 0)
  := ⟨[], 0, 0, 0, .nil, le_refl 0, .start c, rfl, rfl, rfl⟩

/-- Counters are raised. -/
theorem Tracked.raise (h : Tracked f c xs prev k cur) (hc : c ≤ c') :
  Tracked f c' xs prev k cur
  := by
  obtain ⟨ys, last, base, acc, hcovers, hlast, hpolled, hkept⟩ := h
  exact ⟨ys, last, base, acc, hcovers, hlast, hpolled.raise hc, hkept⟩

/-- The next counter is read. -/
theorem Tracked.read [Add α] (hadd : ∀ a b, f (a + b) = f a + f b)
    (h : Tracked f c xs prev k cur) (hk : k < n) :
  Tracked f c xs prev (k + 1) (cur + f (c ⟨k, hk⟩))
  := by
  obtain ⟨ys, last, base, acc, hcovers, hlast, hpolled, hxs, hprev, rfl⟩ := h
  exact ⟨ys, last, base, _, hcovers, hlast, hpolled.read hk, hxs, hprev, (hadd _ _).symm⟩

/-- A turn is finished, and the interval since the last one is told. -/
theorem Tracked.tell (h : Tracked f c xs prev k cur) (hk : n ≤ k) :
  Tracked f c (xs ++ [(prev, cur)]) cur 0 (f 0)
  := by
  obtain ⟨ys, last, base, acc, hcovers, hlast, hpolled, rfl, rfl, rfl⟩ := h
  obtain ⟨hle, hnext⟩ := hpolled.finish hk
  use ys ++ [(last, acc)], acc, acc, 0, hcovers.snoc (hlast.trans hle), le_refl acc, hnext
  simp

/-- A turn is finished, and nothing is told. -/
theorem Tracked.skip (h : Tracked f c xs prev k cur) (hk : n ≤ k) :
  Tracked f c xs prev 0 (f 0)
  := by
  obtain ⟨ys, last, base, acc, hcovers, hlast, hpolled, hxs, hprev, -⟩ := h
  obtain ⟨hle, hnext⟩ := hpolled.finish hk
  exact ⟨ys, last, acc, 0, hcovers, hlast.trans hle, hnext, hxs, hprev, rfl⟩

/-- Intervals that are kept exactly do not go back, cover what has been found once, and have not
come further than the counters. -/
theorem Tracked.exact {xs : List (ℤ × ℤ)} {prev cur : ℤ}
    (h : Tracked (Nat.cast : ℕ → ℤ) c xs prev k cur) :
  (∀ x ∈ xs, 0 ≤ x.2 - x.1) ∧ (xs.map fun x => x.2 - x.1).sum = prev ∧ prev ≤ (∑ t, c t : ℕ)
  := by
  obtain ⟨ys, last, base, acc, hcovers, hlast, hpolled, rfl, rfl, -⟩ := h
  have hdelta : ∀ y ∈ ys, (y.2 : ℤ) - y.1 = (y.2 - y.1 : ℕ) :=
    fun y hy => (Nat.cast_sub (hcovers.le y hy).1).symm
  and_intros
  · intro x hx
    obtain ⟨y, hy, rfl⟩ := List.mem_map.mp hx
    rw [hdelta y hy]
    apply Int.natCast_nonneg
  · rw [List.map_map, ← hcovers.sum, Nat.cast_list_sum, List.map_map]
    congr 1
    apply List.map_congr_left hdelta
  · apply Int.ofNat_le.mpr (hlast.trans hpolled.base_le)

end Tracked

/-! ## Intervals of 64 bits -/

/-- Intervals that are kept in 64 bits, with the end of the last one, of a count that has come to
`total`.  The differences are those of a count that does not go back, add up to the end of the last
interval, and have not come further than the count.  While the count fits 64 bits, no difference
wraps. -/
structure Reported (xs : List (UInt64 × UInt64)) (last : UInt64) (total : ℕ) : Prop where
  exact : ∃ ds : List ℕ, (xs.map fun x => x.2 - x.1) = ds.map UInt64.ofNat ∧
    last = UInt64.ofNat ds.sum ∧ ds.sum ≤ total
  noWrap : total < 2 ^ 64 → (∀ x ∈ xs, x.1 ≤ x.2) ∧
    (xs.map fun x => (x.2 - x.1).toNat).sum = last.toNat ∧ last.toNat ≤ total

/-- Intervals that cover a count, kept in 64 bits. -/
theorem Covers.reported {xs : List (ℕ × ℕ)} {last total : ℕ} (h : Covers xs last)
    (htotal : last ≤ total) :
  Reported (xs.map fun x => (UInt64.ofNat x.1, UInt64.ofNat x.2)) (UInt64.ofNat last) total
  := by
  constructor
  case exact =>
    use xs.map fun x => x.2 - x.1
    and_intros
    · rw [List.map_map, List.map_map]
      apply List.map_congr_left
      intro x hx
      apply (UInt64.ofNat_sub (h.le x hx).1).symm
    · rw [h.sum]
    · rw [h.sum]
      apply htotal
  case noWrap =>
    intro hfits
    have hsmall : ∀ m, m ≤ total → (UInt64.ofNat m).toNat = m :=
      fun m hm => UInt64.toNat_ofNat_of_lt' (lt_of_le_of_lt hm hfits)
    and_intros
    · intro y hy
      obtain ⟨x, hx, rfl⟩ := List.mem_map.mp hy
      obtain ⟨hle, hlast⟩ := h.le x hx
      rw [UInt64.le_iff_toNat_le, hsmall _ (hle.trans (hlast.trans htotal)),
        hsmall _ (hlast.trans htotal)]
      apply hle
    · rw [List.map_map, hsmall _ htotal, ← h.sum]
      congr 1
      apply List.map_congr_left
      intro x hx
      obtain ⟨hle, hlast⟩ := h.le x hx
      change (UInt64.ofNat x.2 - UInt64.ofNat x.1).toNat = _
      rw [← UInt64.ofNat_sub hle, hsmall]
      omega
    · rw [hsmall _ htotal]
      apply htotal

/-- The intervals of a poller that keeps them in 64 bits. -/
theorem Tracked.reported {n : ℕ} {c : Fin n → ℕ} {xs : List (UInt64 × UInt64)} {prev cur : UInt64}
    {k : ℕ} (h : Tracked UInt64.ofNat c xs prev k cur) :
  Reported xs prev (∑ t, c t)
  := by
  obtain ⟨ys, last, base, acc, hcovers, hlast, hpolled, rfl, rfl, -⟩ := h
  apply hcovers.reported (hlast.trans hpolled.base_le)

end Polling
