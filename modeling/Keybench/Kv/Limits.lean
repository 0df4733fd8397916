import Keybench.Kv.Lists

/-!
# Limits of ranges

`kv.range` and `kv.scan` convert their limit to an `int` before they give it to the engine.  On
the skiplist they give the first entries of the range, as many as the limit says, exactly when
the converted limit lets the same entries through (`keepsLimit_iff`).
-/

namespace Keybench

/-! ## Wanted rows -/

/-- The first entries of a range: as many as a positive limit says, if there are that many, and
all of them for any other limit. -/
def firstRows {α : Type} (limit : ℤ) (rows : List α) : List α :=
  rows.take (if 0 < limit then min limit.toNat rows.length else rows.length)

/-- A limit on a range of `m` entries is kept when it is converted to an `int`. -/
def LimitKept (limit : ℤ) (m : ℕ) : Prop :=
  toCInt limit = limit
    ∨ (0 < toCInt limit ∧ m ≤ toCInt limit)
    ∨ (toCInt limit ≤ 0 ∧ (limit ≤ 0 ∨ m ≤ limit))
deriving Decidable

/-- The rows a limit allows are the first ones. -/
theorem leading_eq_firstRows {α : Type} (limit : ℤ) (rows : List α) :
  leading limit rows = firstRows limit rows
  := by
  rw [leading, firstRows]
  split_ifs with hle hlt hlt
  · omega
  · rw [List.take_length]
  · rw [List.take_eq_take_iff, min_assoc, min_self]
  · omega

/-- The converted limit is the same, or differs by a multiple of `2 ^ 32`. -/
theorem toCInt_spec (limit : ℤ) :
  -2 ^ 31 ≤ toCInt limit ∧ toCInt limit < 2 ^ 31
    ∧ ∃ q : ℤ, limit = toCInt limit + 2 ^ 32 * q
  := by
  rw [toCInt, Int.bmod_def]
  have hdiv := Int.emod_add_mul_ediv limit 4294967296
  and_intros
  · split_ifs <;> omega
  · split_ifs <;> omega
  · split_ifs
    · use limit / 4294967296
      norm_num
      omega
    · use limit / 4294967296 + 1
      norm_num
      omega

/-- The converted limit allows the first rows exactly when the limit is kept. -/
theorem leading_toCInt_iff {α : Type} (limit : ℤ) (rows : List α) :
  leading (toCInt limit) rows = firstRows limit rows ↔ LimitKept limit rows.length
  := by
  obtain ⟨hlo, hhi, q, hq⟩ := toCInt_spec limit
  rw [leading_eq_firstRows, firstRows, firstRows, List.take_eq_take_iff, LimitKept]
  generalize toCInt limit = c at hlo hhi hq ⊢
  split_ifs with hc hl hl <;> omega

/-! ## Scans -/

section Scans

variable {S : Type} (api : KvStore S)

/-- A callback never stops a scan. -/
def NeverStops (fn : LuaRun S → Bytes → Bytes → LuaEnd × LuaRun S) : Prop :=
  ∀ r k v, (fn r k v).1 = .returned false

/-- The run after a callback has run on each of some rows, in order. -/
def visitRows (fn : LuaRun S → Bytes → Bytes → LuaEnd × LuaRun S) (rows : List (Bytes × Bytes))
    (r : LuaRun S) : LuaRun S :=
  rows.foldl (fun r row => (fn r row.1 row.2).2) r

/-- A scan that visits exactly some rows: between two readings of the clock the callback runs on
each of them, and the answer is their number. -/
def scanOver (fn : LuaRun S → Bytes → Bytes → LuaEnd × LuaRun S) (rows : List (Bytes × Bytes))
    (r : LuaRun S) : LuaAnswer × LuaRun S :=
  let (t0, store) := api.nowNs r.worker.store
  let r := visitRows fn rows { r with worker := { r.worker with store } }
  let (t1, store) := api.nowNs r.worker.store
  let w := { r.worker with store }
  let w := w.record (.latency .range (t1 - t0))
  let w := w.record (.prim 1)
  (.integer rows.length, { r with worker := w })

end Scans

/-- A callback that never stops passes all rows. -/
theorem scan_neverStops {S : Type} {fn : LuaRun S → Bytes → Bytes → LuaEnd × LuaRun S}
    (hfn : NeverStops fn) (rows : List (Bytes × Bytes)) (r : LuaRun S) :
  scan (scanCb fn) rows (r, false) = ⟨rows.length, false, (visitRows fn rows r, false)⟩
  := by
  induction rows generalizing r with
  | nil => rfl
  | cons row rows ih =>
    obtain ⟨k, v⟩ := row
    have hcb : scanCb fn (r, false) k v = (0, ((fn r k v).2, false)) := by
      have hend : fn r k v = (.returned false, (fn r k v).2) := by
        rw [← hfn r k v]
      rw [scanCb, hend]
      rfl
    rw [scan_cons_pass (by rw [hcb]), hcb, ih]
    rfl

/-- The rows that `collect_cb` collects. -/
theorem scan_collectCb (rows seen : List (Bytes × Bytes)) :
  (scan collectCb rows seen).state = seen ++ rows
  := by
  induction rows generalizing seen with
  | nil => simp
  | cons row rows ih =>
    obtain ⟨k, v⟩ := row
    rw [scan_cons_pass rfl, ih, collectCb, List.append_assoc, List.singleton_append]

/-! ## The verbs -/

section Skiplist

variable {R C : Type} {rand : R → ℕ × R} (hrand : ∀ r, 0 < (rand r).1 ∧ (rand r).1 ≤ slMaxLevel)
  (clock : C → UInt64 × C)

/-- A range of the store, for a callback. -/
theorem skiplistStore_range {σ : Type} (cs : C × HeldSkiplist R) (lo hi : Bytes) (limit : ℤ)
    (cb : RowCallback σ Bytes Bytes) (st : σ) :
  (skiplistStore hrand clock).range cs lo hi limit cb st
    = (((scan cb (leading limit (cs.2.contents.slice lo hi)) st).passed : ℤ),
        (scan cb (leading limit (cs.2.contents.slice lo hi)) st).state)
  := Option.get_of_eq_some _ (slRange_spec cs.2.holds lo hi limit cb st cs.2.fuel_enough)

/-- What is expected of `kv.range` and `kv.scan` with a limit. -/
structure KeepsLimit (w : Worker (C × HeldSkiplist R)) (lo hi : Bytes) (limit : ℤ) : Prop where
  /-- `kv.range` returns the first entries. -/
  range : ∀ args, luaLChecklstring (luaArg args 1) = some lo →
    luaLChecklstring (luaArg args 2) = some hi → luaLOptinteger 0 (luaArg args 3) = some limit →
    ∃ w', kvCall (skiplistStore hrand clock) args w .range
      = some (.rows (firstRows limit (w.store.2.contents.slice lo hi)), w')
  /-- `kv.scan` with a callback that never stops visits the first entries. -/
  scan : ∀ fn, NeverStops fn → ∀ made, lScan (skiplistStore hrand clock) fn lo hi limit ⟨w, made⟩
    = scanOver (skiplistStore hrand clock) fn (firstRows limit (w.store.2.contents.slice lo hi))
      ⟨w, made⟩

/-- `kv.range` returns the rows that the converted limit allows. -/
theorem lRange_eq (args : List LuaArg) {lo hi : Bytes} {limit : ℤ}
    (hlo : luaLChecklstring (luaArg args 1) = some lo)
    (hhi : luaLChecklstring (luaArg args 2) = some hi)
    (hlimit : luaLOptinteger 0 (luaArg args 3) = some limit) (w : Worker (C × HeldSkiplist R)) :
  ∃ w', kvCall (skiplistStore hrand clock) args w .range
      = some (.rows (leading (toCInt limit) (w.store.2.contents.slice lo hi)), w')
    ∧ w'.store.2 = w.store.2
  := by
  simp only [kvCall, lRange, hlo, hhi, hlimit, skiplistStore_range, scan_collectCb,
    skiplistStore_nowNs, List.nil_append, Option.bind_eq_bind, Option.bind_some]
  exact ⟨_, rfl, rfl⟩

/-- `kv.scan` with a callback that never stops visits the rows that the converted limit
allows. -/
theorem lScan_eq {fn : LuaRun (C × HeldSkiplist R) → Bytes → Bytes →
      LuaEnd × LuaRun (C × HeldSkiplist R)} (hfn : NeverStops fn) (lo hi : Bytes) (limit : ℤ)
    (w : Worker (C × HeldSkiplist R)) (made : List KvMade) :
  lScan (skiplistStore hrand clock) fn lo hi limit ⟨w, made⟩
    = scanOver (skiplistStore hrand clock) fn
      (leading (toCInt limit) (w.store.2.contents.slice lo hi)) ⟨w, made⟩
  := by
  simp only [lScan, scanOver, skiplistStore_range, skiplistStore_nowNs, scan_neverStops hfn,
    scanAnswer, Bool.false_eq_true, if_false]

/-- If a limit is treated as expected, the converted limit allows the first rows. -/
theorem KeepsLimit.leading_eq {w : Worker (C × HeldSkiplist R)} {lo hi : Bytes} {limit : ℤ}
    (h : KeepsLimit hrand clock w lo hi limit) :
  leading (toCInt limit) (w.store.2.contents.slice lo hi)
    = firstRows limit (w.store.2.contents.slice lo hi)
  := by
  have hargs : luaLChecklstring (.text lo none) = some lo ∧
      luaLChecklstring (.text hi none) = some hi ∧
      luaLOptinteger 0 (.text [] (some limit)) = some limit := ⟨rfl, rfl, rfl⟩
  obtain ⟨w₁, hwanted⟩ := h.range [.text lo none, .text hi none, .text [] (some limit)]
    hargs.1 hargs.2.1 hargs.2.2
  obtain ⟨w₂, hgiven, -⟩ := lRange_eq hrand clock
    [.text lo none, .text hi none, .text [] (some limit)]
    hargs.1 hargs.2.1 hargs.2.2 w
  rw [hwanted] at hgiven
  simp only [Option.some.injEq, Prod.mk.injEq, LuaAnswer.rows.injEq] at hgiven
  apply hgiven.1.symm

/-- On the skiplist, `kv.range` returns and `kv.scan` visits the first entries of every range, in
every state, exactly when the limit is kept. -/
theorem keepsLimit_iff (w : Worker (C × HeldSkiplist R)) (lo hi : Bytes) (limit : ℤ) :
  KeepsLimit hrand clock w lo hi limit
    ↔ LimitKept limit (w.store.2.contents.slice lo hi).length
  := by
  rw [← leading_toCInt_iff]
  constructor
  · apply KeepsLimit.leading_eq
  · intro h
    constructor
    · intro args hlo hhi hlimit
      obtain ⟨w', hcall, -⟩ := lRange_eq hrand clock args hlo hhi hlimit w
      use w'
      rw [hcall, h]
    · intro fn hfn made
      rw [lScan_eq hrand clock hfn, h]

end Skiplist

/-! ## A limit of more than an `int` -/

/-- A skiplist with two keys. -/
def twoKeys : HeldSkiplist UInt64 :=
  (((HeldSkiplist.new 1).put randLevel_height [1] []).2.put randLevel_height [2] []).2

/-- With two keys, a limit of one is kept. -/
theorem keepsLimit_iff_example :
  KeepsLimit randLevel_height (fun u : Unit => (0, u)) ⟨((), twoKeys), statsReset⟩ [] [3] 1
  := (keepsLimit_iff randLevel_height (fun u : Unit => (0, u)) ⟨((), twoKeys), statsReset⟩ [] [3]
    1).mpr (by decide)

/-- With two keys, a limit of `2 ^ 32 + 1` is not kept. -/
theorem keepsLimit_wraps :
  ¬ KeepsLimit randLevel_height (fun u : Unit => (0, u)) ⟨((), twoKeys), statsReset⟩ [] [3]
      (2 ^ 32 + 1)
  := by
  intro h
  have hrows : twoKeys.contents.slice [] [3] = [([1], []), ([2], [])] := by decide
  have hleading := h.leading_eq
  revert hleading
  rw [hrows]
  decide

end Keybench
