import Keybench.Bytes
import Keybench.Lib.Scan

/-!
# The range loop of the TidesDB engine

TidesDB is not part of the program.  `TidesdbApi` are the calls the engine makes on it, and
`TidesdbApi.Iterates` is what it documents about its iterators when no call fails: seeking
finds the first key that is not below the target, and stepping goes on in byte order.
Stepping past the last row may report a failure.
-/

namespace Keybench

variable {D Cf Txn It σ : Type}

/-- `TDB_SUCCESS`. -/
def tdbSuccess : ℤ := 0

/-- The calls of the engine that read a range. -/
structure TidesdbApi (D Cf Txn It : Type) where
  /-- `tidesdb_txn_begin`. -/
  txnBegin : D → ℤ × Txn
  /-- `tidesdb_iter_new`. -/
  iterNew : Txn → Cf → ℤ × It
  /-- `tidesdb_iter_seek`. -/
  iterSeek : It → Bytes → It
  /-- `tidesdb_iter_valid`. -/
  iterValid : It → Bool
  /-- `tidesdb_iter_key_value`. -/
  iterKeyValue : It → ℤ × Bytes × Bytes
  /-- `tidesdb_iter_next`. -/
  iterNext : It → ℤ × It

/-- The open database and its column family. -/
structure Tdb (D Cf : Type) where
  /-- The database. -/
  db : D
  /-- The column family. -/
  cf : Cf

/-- The iterator stands before the given rows. -/
def TidesdbApi.StandsAt (api : TidesdbApi D Cf Txn It) : It → List (Bytes × Bytes) → Prop
  | it, [] => api.iterValid it = false
  | it, (k, v) :: rows => api.iterValid it = true ∧ api.iterKeyValue it = (tdbSuccess, k, v) ∧
      (rows ≠ [] → (api.iterNext it).1 = tdbSuccess) ∧ api.StandsAt (api.iterNext it).2 rows

/-- A transaction begins, and its iterators seek and step through the contents. -/
structure TidesdbApi.Iterates (api : TidesdbApi D Cf Txn It) (t : Tdb D Cf) (m : Contents) :
    Prop where
  begins : (api.txnBegin t.db).1 = tdbSuccess
  opens : (api.iterNew (api.txnBegin t.db).2 t.cf).1 = tdbSuccess
  seek : ∀ lo, api.StandsAt (api.iterSeek (api.iterNew (api.txnBegin t.db).2 t.cf).2 lo)
    (m.entries.filter (fun e => lo ≤ e.1))

/-- The loop of `tdb_range` after `n` rows.  Keys and values are freed before the next step,
which has no effect here. -/
def tdbRangeLoop (api : TidesdbApi D Cf Txn It) (hi : Bytes) (limit : ℤ)
    (cb : RowCallback σ Bytes Bytes) : ℕ → It → ℤ → σ → Option (ℤ × σ)
  | 0, _, _, _ => none
  | fuel + 1, it, n, st =>
    if api.iterValid it ∧ (limit ≤ 0 ∨ n < limit) then
      let (rc, k, v) := api.iterKeyValue it
      if rc ≠ tdbSuccess then some (n, st)
      else
        let pastHi := decide (0 ≤ kvKeycmp k hi)
        let (n, cbStop, st) :=
          if pastHi then (n, (0 : ℤ), st)
          else
            let (stop, st) := cb st k v
            (n + 1, stop, st)
        if pastHi ∨ cbStop ≠ 0 then some (n, st)
        else
          let (rc, it) := api.iterNext it
          if rc ≠ tdbSuccess then some (n, st)
          else tdbRangeLoop api hi limit cb fuel it n st
    else some (n, st)

/-- `tdb_range`: the row count and the last state of the callback. -/
def tdbRange (api : TidesdbApi D Cf Txn It) (fuel : ℕ) (t : Tdb D Cf) (lo hi : Bytes) (limit : ℤ)
    (cb : RowCallback σ Bytes Bytes) (st : σ) : Option (ℤ × σ) :=
  let (rc, txn) := api.txnBegin t.db
  if rc ≠ tdbSuccess then some (0, st)
  else
    let (rc, it) := api.iterNew txn t.cf
    if rc ≠ tdbSuccess then some (0, st)
    else
      let it := api.iterSeek it lo
      tdbRangeLoop api hi limit cb fuel it 0 st

/-- The loop calls the callback on the remaining rows below `hi` and counts its calls. -/
theorem tdbRangeLoop_spec {api : TidesdbApi D Cf Txn It} (hi : Bytes) (limit : ℤ)
    (cb : RowCallback σ Bytes Bytes) :
  ∀ (rows : List (Bytes × Bytes)) {it : It} {fuel : ℕ} (n : ℤ) (st : σ), api.StandsAt it rows →
    rows.length < fuel →
    tdbRangeLoop api hi limit cb fuel it n st
      = some (n + (scan cb (remaining limit n (OrderedMap.upTo hi rows)) st).called,
          (scan cb (remaining limit n (OrderedMap.upTo hi rows)) st).state)
  | [], it, fuel + 1, n, st, hit, _ => by
    rw [TidesdbApi.StandsAt] at hit
    simp [tdbRangeLoop, hit, ScanOutcome.called]
  | (k, v) :: rows, it, fuel + 1, n, st, hit, hfuel => by
    obtain ⟨hvalid, hkv, hstep, hnext⟩ := hit
    rw [tdbRangeLoop]
    by_cases hlim : limit ≤ 0 ∨ n < limit
    · rw [if_pos ⟨hvalid, hlim⟩]
      simp only [hkv, ne_eq, not_true_eq_false, if_false, kvKeycmp_nonneg_iff]
      by_cases hhi : k < hi
      · have hpast : decide (hi ≤ k) = false := by simpa using hhi
        rw [OrderedMap.upTo_cons_lt hhi, remaining_cons hlim]
        simp only [hpast, Bool.false_eq_true, if_false, false_or]
        by_cases hstop : (cb st k v).1 = 0
        · rw [if_neg (not_not.mpr hstop), scan_cons_pass hstop]
          have hrest := tdbRangeLoop_spec hi limit cb rows (n + 1) (cb st k v).2 hnext
            (Nat.lt_of_succ_lt_succ hfuel)
          by_cases hrc : (api.iterNext it).1 = tdbSuccess
          · rw [if_neg (not_not.mpr hrc), hrest]
            simp only [ScanOutcome.called, Option.some.injEq, Prod.mk.injEq, and_true]
            omega
          · -- the last row: no further row is left to count
            obtain rfl : rows = [] := by
              by_contra hne
              apply hrc (hstep hne)
            simp [hrc, ScanOutcome.called]
        · rw [if_pos hstop, scan_cons_stop hstop]
          rfl
      · have hpast : decide (hi ≤ k) = true := by simpa using hhi
        rw [OrderedMap.upTo_cons_ge hhi]
        simp [hpast, ScanOutcome.called]
    · rw [if_neg fun h => hlim h.2, remaining_of_reached hlim]
      simp [ScanOutcome.called]

/-- `tdb_range` calls the callback on the leading rows of the slice and counts its calls. -/
theorem tdbRange_spec {api : TidesdbApi D Cf Txn It} {t : Tdb D Cf} {m : Contents}
    (h : api.Iterates t m) (lo hi : Bytes) (limit : ℤ) (cb : RowCallback σ Bytes Bytes) (st : σ)
    {fuel : ℕ} (hfuel : m.entries.length < fuel) :
  tdbRange api fuel t lo hi limit cb st
    = some (((scan cb (leading limit (m.slice lo hi)) st).called : ℤ),
        (scan cb (leading limit (m.slice lo hi)) st).state)
  := by
  have hlen : (m.entries.filter (fun e => lo ≤ e.1)).length < fuel :=
    Nat.lt_of_le_of_lt (List.length_filter_le _ _) hfuel
  have hloop := tdbRangeLoop_spec hi limit cb _ 0 st (h.seek lo) hlen
  simp only [tdbRange, h.begins, h.opens, ne_eq, not_true_eq_false, if_false, hloop]
  rw [(m.splitAt lo).slice_eq, leading_eq_remaining, Int.zero_add]

end Keybench
