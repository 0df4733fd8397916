import Keybench.Bytes
import Keybench.Lib.Scan

/-!
# The range loop of the RocksDB engine

RocksDB is not part of the program.  `RocksdbApi` are the calls the engine makes on it, and
`RocksdbApi.Iterates` is what it documents about its iterators: seeking finds the first key
that is not below the target, and stepping goes on in byte order.
-/

namespace Keybench

variable {D It σ : Type}

/-- The calls of the engine that read a range. -/
structure RocksdbApi (D It : Type) where
  /-- `rocksdb_create_iterator`. -/
  createIterator : D → It
  /-- `rocksdb_iter_seek`. -/
  iterSeek : It → Bytes → It
  /-- `rocksdb_iter_valid`. -/
  iterValid : It → Bool
  /-- `rocksdb_iter_key`. -/
  iterKey : It → Bytes
  /-- `rocksdb_iter_value`. -/
  iterValue : It → Bytes
  /-- `rocksdb_iter_next`. -/
  iterNext : It → It

/-- The iterator stands before the given rows. -/
def RocksdbApi.StandsAt (api : RocksdbApi D It) : It → List (Bytes × Bytes) → Prop
  | it, [] => api.iterValid it = false
  | it, (k, v) :: rows => api.iterValid it = true ∧ api.iterKey it = k ∧ api.iterValue it = v ∧
      api.StandsAt (api.iterNext it) rows

/-- The iterators of a database seek and step through the contents. -/
structure RocksdbApi.Iterates (api : RocksdbApi D It) (db : D) (m : Contents) : Prop where
  seek : ∀ lo, api.StandsAt (api.iterSeek (api.createIterator db) lo)
    (m.entries.filter (fun e => lo ≤ e.1))

/-- The loop of `rdb_range` after `n` rows. -/
def rdbRangeLoop (api : RocksdbApi D It) (hi : Bytes) (limit : ℤ) (cb : RowCallback σ Bytes Bytes) :
    ℕ → It → ℤ → σ → Option (ℤ × σ)
  | 0, _, _, _ => none
  | fuel + 1, it, n, st =>
    if api.iterValid it ∧ (limit ≤ 0 ∨ n < limit) then
      let key := api.iterKey it
      if 0 ≤ kvKeycmp key hi then some (n, st)
      else
        let val := api.iterValue it
        let n := n + 1
        let (stop, st) := cb st key val
        if stop ≠ 0 then some (n, st)
        else rdbRangeLoop api hi limit cb fuel (api.iterNext it) n st
    else some (n, st)

/-- `rdb_range`: the row count and the last state of the callback. -/
def rdbRange (api : RocksdbApi D It) (fuel : ℕ) (db : D) (lo hi : Bytes) (limit : ℤ)
    (cb : RowCallback σ Bytes Bytes) (st : σ) : Option (ℤ × σ) :=
  let it := api.createIterator db
  let it := api.iterSeek it lo
  rdbRangeLoop api hi limit cb fuel it 0 st

/-- The loop calls the callback on the remaining rows below `hi` and counts its calls. -/
theorem rdbRangeLoop_spec {api : RocksdbApi D It} (hi : Bytes) (limit : ℤ)
    (cb : RowCallback σ Bytes Bytes) :
  ∀ (rows : List (Bytes × Bytes)) {it : It} {fuel : ℕ} (n : ℤ) (st : σ), api.StandsAt it rows →
    rows.length < fuel →
    rdbRangeLoop api hi limit cb fuel it n st
      = some (n + (scan cb (remaining limit n (OrderedMap.upTo hi rows)) st).called,
          (scan cb (remaining limit n (OrderedMap.upTo hi rows)) st).state)
  | [], it, fuel + 1, n, st, hit, _ => by
    rw [RocksdbApi.StandsAt] at hit
    simp [rdbRangeLoop, hit, ScanOutcome.called]
  | (k, v) :: rows, it, fuel + 1, n, st, hit, hfuel => by
    obtain ⟨hvalid, hkey, hval, hnext⟩ := hit
    rw [rdbRangeLoop]
    by_cases hlim : limit ≤ 0 ∨ n < limit
    · rw [if_pos ⟨hvalid, hlim⟩]
      simp only [hkey, hval, kvKeycmp_nonneg_iff]
      by_cases hhi : k < hi
      · rw [if_neg (not_le.mpr hhi), OrderedMap.upTo_cons_lt hhi, remaining_cons hlim]
        by_cases hstop : (cb st k v).1 = 0
        · rw [if_neg (not_not.mpr hstop), scan_cons_pass hstop,
            rdbRangeLoop_spec hi limit cb rows (n + 1) _ hnext (Nat.lt_of_succ_lt_succ hfuel)]
          simp only [ScanOutcome.called, Option.some.injEq, Prod.mk.injEq, and_true]
          omega
        · rw [if_pos hstop, scan_cons_stop hstop]
          rfl
      · rw [if_pos (not_lt.mp hhi), OrderedMap.upTo_cons_ge hhi]
        simp [ScanOutcome.called]
    · rw [if_neg fun h => hlim h.2, remaining_of_reached hlim]
      simp [ScanOutcome.called]

/-- `rdb_range` calls the callback on the leading rows of the slice and counts its calls. -/
theorem rdbRange_spec {api : RocksdbApi D It} {db : D} {m : Contents} (h : api.Iterates db m)
    (lo hi : Bytes) (limit : ℤ) (cb : RowCallback σ Bytes Bytes) (st : σ) {fuel : ℕ}
    (hfuel : m.entries.length < fuel) :
  rdbRange api fuel db lo hi limit cb st
    = some (((scan cb (leading limit (m.slice lo hi)) st).called : ℤ),
        (scan cb (leading limit (m.slice lo hi)) st).state)
  := by
  have hlen : (m.entries.filter (fun e => lo ≤ e.1)).length < fuel :=
    Nat.lt_of_le_of_lt (List.length_filter_le _ _) hfuel
  rw [rdbRange, rdbRangeLoop_spec hi limit cb _ 0 st (h.seek lo) hlen, (m.splitAt lo).slice_eq,
    leading_eq_remaining, Int.zero_add]

end Keybench
