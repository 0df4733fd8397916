import Keybench.Engine.Agreement

/-!
# The order of keys

`Before a b` is the reference order of keys: a proper prefix comes first, and otherwise the
first bytes that differ decide, compared as unsigned numbers.  `kvKeycmp` is a total order and
this one (`kvKeycmp_order`), so the three engines call back on the same rows, those from `lo`
on and before `hi` in the reference order (`range_outcomes_before`).
-/

namespace Keybench

/-- The first string is a proper prefix of the second, or has the smaller byte where they
first differ. -/
def Before (a b : Bytes) : Prop :=
  (a <+: b ∧ a ≠ b) ∨
    ∃ (p : Bytes) (x y : UInt8), p ++ [x] <+: a ∧ p ++ [y] <+: b ∧ x.toNat < y.toNat

theorem before_nil_iff (b : Bytes) :
  Before [] b ↔ b ≠ []
  := by
  constructor
  · rintro (⟨-, hne⟩ | ⟨p, x, y, hx, -⟩) rfl
    · apply hne rfl
    · simp at hx
  · intro hb
    left
    exact ⟨List.nil_prefix, hb.symm⟩

theorem not_before_nil (a : Bytes) :
  ¬ Before a []
  := by
  rintro (⟨hpre, hne⟩ | ⟨p, x, y, -, hy, -⟩)
  · apply hne
    apply List.prefix_nil.mp hpre
  · simp at hy

/-- The first bytes decide when they differ, the tails otherwise. -/
theorem before_cons_iff (x y : UInt8) (a b : Bytes) :
  Before (x :: a) (y :: b) ↔ x.toNat < y.toNat ∨ x = y ∧ Before a b
  := by
  constructor
  · rintro (⟨hpre, hne⟩ | ⟨p, u, v, hu, hv, huv⟩)
    · obtain ⟨rfl, htail⟩ := List.cons_prefix_cons.mp hpre
      right
      use rfl
      left
      use htail
      rintro rfl
      apply hne rfl
    · cases p with
      | nil =>
        obtain ⟨rfl, -⟩ := List.cons_prefix_cons.mp hu
        obtain ⟨rfl, -⟩ := List.cons_prefix_cons.mp hv
        left
        apply huv
      | cons z p =>
        obtain ⟨rfl, hu'⟩ := List.cons_prefix_cons.mp hu
        obtain ⟨rfl, hv'⟩ := List.cons_prefix_cons.mp hv
        right
        use rfl
        right
        use p, u, v, hu', hv'
  · rintro (hlt | ⟨rfl, ⟨hpre, hne⟩ | ⟨p, u, v, hu, hv, huv⟩⟩)
    · right
      use [], x, y
      simpa using hlt
    · left
      use List.cons_prefix_cons.mpr ⟨rfl, hpre⟩
      simpa using hne
    · right
      use x :: p, u, v, List.cons_prefix_cons.mpr ⟨rfl, hu⟩, List.cons_prefix_cons.mpr ⟨rfl, hv⟩

/-- The reference order is the order of lists of bytes. -/
theorem before_iff_lt (a b : Bytes) :
  Before a b ↔ a < b
  := by
  induction a generalizing b with
  | nil =>
    rw [before_nil_iff]
    cases b with
    | nil => simp
    | cons y b => simp
  | cons x a ih =>
    cases b with
    | nil =>
      apply iff_of_false (not_before_nil _)
      apply List.not_lt_nil
    | cons y b =>
      rw [before_cons_iff, ih, List.cons_lt_cons_iff, UInt8.lt_iff_toNat_lt]

/-! ## The comparison of keys -/

/-- `kvKeycmp` is positive exactly when the second string is smaller. -/
theorem kvKeycmp_pos_iff (a b : Bytes) :
  0 < kvKeycmp a b ↔ b < a
  := by
  rw [lt_iff_le_and_ne, lt_iff_le_and_ne, kvKeycmp_nonneg_iff, ne_comm, ne_eq,
    kvKeycmp_eq_zero_iff, ne_comm]

/-- `kvKeycmp` is at most zero exactly when the first string is not greater. -/
theorem kvKeycmp_nonpos_iff (a b : Bytes) :
  kvKeycmp a b ≤ 0 ↔ a ≤ b
  := by
  rw [← not_lt, kvKeycmp_pos_iff, not_lt]

/-- Exchanging the arguments negates the sign. -/
theorem sign_kvKeycmp_swap (a b : Bytes) :
  (kvKeycmp b a).sign = -(kvKeycmp a b).sign
  := by
  rcases lt_trichotomy a b with h | rfl | h
  · rw [Int.sign_eq_neg_one_of_neg ((kvKeycmp_neg_iff a b).mpr h),
      Int.sign_eq_one_of_pos ((kvKeycmp_pos_iff b a).mpr h)]
    rfl
  · rw [(kvKeycmp_eq_zero_iff a a).mpr rfl]
    rfl
  · rw [Int.sign_eq_neg_one_of_neg ((kvKeycmp_neg_iff b a).mpr h),
      Int.sign_eq_one_of_pos ((kvKeycmp_pos_iff a b).mpr h)]

/-- `kvKeycmp` is a total order of byte strings: its sign is antisymmetric and transitive and
zero on equal strings only.  The order is the reference order, both for the test of the
searches and for the test that ends a range. -/
theorem kvKeycmp_order (a b c : Bytes) :
  (kvKeycmp b a).sign = -(kvKeycmp a b).sign ∧
    (kvKeycmp a b = 0 ↔ a = b) ∧
    (kvKeycmp a b ≤ 0 → kvKeycmp b c ≤ 0 →
      kvKeycmp a c ≤ 0 ∧ (kvKeycmp a c = 0 → kvKeycmp a b = 0 ∧ kvKeycmp b c = 0)) ∧
    (kvKeycmp a b < 0 ↔ Before a b) ∧ (0 ≤ kvKeycmp a b ↔ ¬ Before a b)
  := by
  and_intros
  · apply sign_kvKeycmp_swap
  · apply kvKeycmp_eq_zero_iff
  · simp only [kvKeycmp_nonpos_iff, kvKeycmp_eq_zero_iff]
    intro hab hbc
    use hab.trans hbc
    rintro rfl
    have heq := le_antisymm hab hbc
    exact ⟨heq, heq.symm⟩
  · rw [before_iff_lt]
    apply kvKeycmp_neg_iff
  · rw [before_iff_lt, not_lt]
    apply kvKeycmp_nonneg_iff

/-- A proper prefix, a greater byte with the top bit set, and both orders at once. -/
theorem kvKeycmp_order_example :
  kvKeycmp [1] [1, 0x7f] ≤ 0 ∧ kvKeycmp [1, 0x7f] [1, 0x80, 0] ≤ 0 ∧
    kvKeycmp [1] [1, 0x80, 0] ≤ 0 ∧
    (kvKeycmp [1] [1, 0x80, 0] = 0 →
      kvKeycmp [1] [1, 0x7f] = 0 ∧ kvKeycmp [1, 0x7f] [1, 0x80, 0] = 0)
  := by
  obtain ⟨-, -, htrans, -⟩ := kvKeycmp_order [1] [1, 0x7f] [1, 0x80, 0]
  use by decide, by decide
  apply htrans <;> decide

/-- The engines on stores with the same contents call back on the same rows: those of the
entries from `lo` on and before `hi`, in the reference order. -/
theorem range_outcomes_before {R D It D' Cf Txn It' : Type} {m : Contents} {s : Skiplist R}
    (hs : SlHolds s m) {rapi : RocksdbApi D It} {db : D} (hr : rapi.Iterates db m)
    {tapi : TidesdbApi D' Cf Txn It'} {t : Tdb D' Cf} (ht : tapi.Iterates t m) (lo hi : Bytes)
    (limit : ℤ) {fuel : ℕ} (hfuel : m.entries.length + 1 < fuel) {σ : Type}
    (cb : RowCallback σ Bytes Bytes) (st : σ) :
  ∃ (rows : List (Bytes × Bytes)) (n₁ n₂ n₃ : ℤ) (st' : σ),
    rows.Pairwise (fun e f => Before e.1 f.1) ∧
    (∀ k v, (k, v) ∈ rows ↔ m.lookup k = some v ∧ ¬ Before k lo ∧ Before k hi) ∧
    st' = (scan cb (leading limit rows) st).state ∧
    slRange fuel s lo hi limit cb st = some (n₁, st') ∧
    rdbRange rapi fuel db lo hi limit cb st = some (n₂, st') ∧
    tdbRange tapi fuel t lo hi limit cb st = some (n₃, st')
  := by
  obtain ⟨passed, called, st', hsl, hrdb, htdb, hst, -⟩ :=
    range_outcomes hs hr ht lo hi limit hfuel cb st
  use m.slice lo hi, passed, called, called, st'
  simp only [before_iff_lt, not_lt]
  use m.slice_sorted lo hi, fun k v => m.mem_slice lo hi k v, hst, hsl, hrdb, htdb

end Keybench
