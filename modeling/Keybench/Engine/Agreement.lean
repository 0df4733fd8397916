import Keybench.Engine.Rocksdb
import Keybench.Engine.Tidesdb
import Keybench.Kv.Lua
import Keybench.Skiplist.History

/-!
# The engines' range loops compared

On stores with the same contents the three range loops call the callback on the same rows and
leave it in the same state.  The skiplist counts the rows that the callback passes and the
other engines the rows that it is called on, so the counts are the same exactly when no call
stops the loop (`range_agree_iff`).
-/

namespace Keybench

/-- The three range loops on stores with contents `m`: they succeed with the same state of the
callback, and with counts that differ by one when a call stops them. -/
theorem range_outcomes {R D It D' Cf Txn It' : Type} {m : Contents} {s : Skiplist R}
    (hs : SlHolds s m) {rapi : RocksdbApi D It} {db : D} (hr : rapi.Iterates db m)
    {tapi : TidesdbApi D' Cf Txn It'} {t : Tdb D' Cf} (ht : tapi.Iterates t m) (lo hi : Bytes)
    (limit : ℤ) {fuel : ℕ} (hfuel : m.entries.length + 1 < fuel) {σ : Type}
    (cb : RowCallback σ Bytes Bytes) (st : σ) :
  ∃ (passed called : ℕ) (st' : σ),
    slRange fuel s lo hi limit cb st = some ((passed : ℤ), st') ∧
    rdbRange rapi fuel db lo hi limit cb st = some ((called : ℤ), st') ∧
    tdbRange tapi fuel t lo hi limit cb st = some ((called : ℤ), st') ∧
    st' = (scan cb (leading limit (m.slice lo hi)) st).state ∧
    (passed = called ↔ Passes cb (leading limit (m.slice lo hi)) st)
  := by
  have hfuel' : m.entries.length < fuel := by omega
  use (scan cb (leading limit (m.slice lo hi)) st).passed,
    (scan cb (leading limit (m.slice lo hi)) st).called,
    (scan cb (leading limit (m.slice lo hi)) st).state
  and_intros
  · apply slRange_spec hs lo hi limit cb st hfuel
  · apply rdbRange_spec hr lo hi limit cb st hfuel'
  · apply tdbRange_spec ht lo hi limit cb st hfuel'
  · rfl
  · apply passed_eq_called_iff

/-- On stores with the same contents the range loops of the three engines call every callback
on the same rows in the same order and leave it in the same state, and they return the same
row count exactly when no call on the leading rows of the interval returns nonzero.  `kv.scan`
then answers the same on every engine, and otherwise only when the callback raises an error. -/
theorem range_agree_iff {R D It D' Cf Txn It' : Type} {m : Contents} {s : Skiplist R}
    (hs : SlHolds s m) {rapi : RocksdbApi D It} {db : D} (hr : rapi.Iterates db m)
    {tapi : TidesdbApi D' Cf Txn It'} {t : Tdb D' Cf} (ht : tapi.Iterates t m) (lo hi : Bytes)
    (limit : ℤ) {fuel : ℕ} (hfuel : m.entries.length + 1 < fuel) :
  (∀ (σ : Type) (cb : RowCallback σ Bytes Bytes) (st : σ),
    ∃ (n₁ n₂ n₃ : ℤ) (st' : σ) (rows : List (Bytes × Bytes)),
      slRange fuel s lo hi limit (recording cb) (st, []) = some (n₁, (st', rows)) ∧
      rdbRange rapi fuel db lo hi limit (recording cb) (st, []) = some (n₂, (st', rows)) ∧
      tdbRange tapi fuel t lo hi limit (recording cb) (st, []) = some (n₃, (st', rows)) ∧
      (n₁ = n₂ ∧ n₂ = n₃ ↔ Passes cb (leading limit (m.slice lo hi)) st)) ∧
    ∀ (σ : Type) (fn : σ → Bytes → Bytes → LuaEnd × σ) (st : σ),
      ∃ (n₁ n₂ n₃ : ℤ) (st' : σ) (err : Bool),
        slRange fuel s lo hi limit (scanCb fn) (st, false) = some (n₁, (st', err)) ∧
        rdbRange rapi fuel db lo hi limit (scanCb fn) (st, false) = some (n₂, (st', err)) ∧
        tdbRange tapi fuel t lo hi limit (scanCb fn) (st, false) = some (n₃, (st', err)) ∧
        (scanAnswer n₁ err = scanAnswer n₂ err ∧ scanAnswer n₂ err = scanAnswer n₃ err ↔
          Passes (scanCb fn) (leading limit (m.slice lo hi)) (st, false) ∨
            (scan (scanCb fn) (leading limit (m.slice lo hi)) (st, false)).state.2 = true)
  := by
  constructor
  · intro σ cb st
    obtain ⟨passed, called, ⟨st', rows⟩, hsl, hrdb, htdb, -, hcount⟩ :=
      range_outcomes hs hr ht lo hi limit hfuel (recording cb) (st, [])
    rw [passes_recording] at hcount
    use passed, called, called, st', rows, hsl, hrdb, htdb
    rw [← hcount]
    simp
  · intro σ fn st
    obtain ⟨passed, called, ⟨st', err⟩, hsl, hrdb, htdb, hst, hcount⟩ :=
      range_outcomes hs hr ht lo hi limit hfuel (scanCb fn) (st, false)
    use passed, called, called, st', err, hsl, hrdb, htdb
    rw [← hcount, ← hst]
    cases err with
    | true => simp [scanAnswer]
    | false => simp [scanAnswer]

/-! ## Engines on lists -/

/-- A RocksDB whose iterators are lists of rows. -/
def listRocksdb : RocksdbApi Contents (List (Bytes × Bytes)) where
  createIterator m := m.entries
  iterSeek it lo := it.filter (fun e => lo ≤ e.1)
  iterValid it := ¬ it.isEmpty
  iterKey it := (it.headD ([], [])).1
  iterValue it := (it.headD ([], [])).2
  iterNext it := it.tail

/-- Iterators that are lists step through the contents. -/
theorem listRocksdb_iterates (m : Contents) :
  listRocksdb.Iterates m m
  := by
  have hstands : ∀ rows : List (Bytes × Bytes), listRocksdb.StandsAt rows rows := by
    intro rows
    induction rows with
    | nil => rfl
    | cons row rows ih => exact ⟨rfl, rfl, rfl, ih⟩
  constructor
  intro lo
  apply hstands

/-- A TidesDB whose iterators are lists of rows; stepping past the last row fails. -/
def listTidesdb : TidesdbApi Contents Unit Contents (List (Bytes × Bytes)) where
  txnBegin m := (tdbSuccess, m)
  iterNew m _ := (tdbSuccess, m.entries)
  iterSeek it lo := it.filter (fun e => lo ≤ e.1)
  iterValid it := ¬ it.isEmpty
  iterKeyValue it := (tdbSuccess, (it.headD ([], [])).1, (it.headD ([], [])).2)
  iterNext it := (if it.tail.isEmpty then -1 else tdbSuccess, it.tail)

/-- Iterators that are lists step through the contents. -/
theorem listTidesdb_iterates (m : Contents) :
  listTidesdb.Iterates ⟨m, ()⟩ m
  := by
  have hstands : ∀ rows : List (Bytes × Bytes), listTidesdb.StandsAt rows rows := by
    intro rows
    induction rows with
    | nil => rfl
    | cons row rows ih =>
      refine ⟨rfl, rfl, ?_, ih⟩
      intro hne
      apply if_neg
      simpa using hne
  constructor
  case begins => rfl
  case opens => rfl
  case seek =>
    intro lo
    apply hstands

/-- The contents with one row. -/
def oneRow : Contents := OrderedMap.empty.insert [1] [2]

/-- A skiplist with one row. -/
theorem exists_slHolds_oneRow :
  ∃ s, slPut randLevel 3 (skiplistBackendOpen 1) [1] [2] = some (0, s) ∧ SlHolds s oneRow
  := by
  apply slPut_spec (SlHolds.open _) randLevel_height
  decide

/-- The three engines with one row, and a callback that never stops. -/
theorem range_agree_iff_example :
  ∃ s, slPut randLevel 3 (skiplistBackendOpen 1) [1] [2] = some (0, s) ∧
    ∃ (n₁ n₂ n₃ : ℤ) (rows : List (Bytes × Bytes)),
      slRange 3 s [] [5] 0 (recording (fun _ _ _ => (0, ()))) ((), []) = some (n₁, ((), rows)) ∧
      rdbRange listRocksdb 3 oneRow [] [5] 0 (recording (fun _ _ _ => (0, ()))) ((), [])
        = some (n₂, ((), rows)) ∧
      tdbRange listTidesdb 3 ⟨oneRow, ()⟩ [] [5] 0 (recording (fun _ _ _ => (0, ()))) ((), [])
        = some (n₃, ((), rows)) ∧ n₁ = n₂ ∧ n₂ = n₃
  := by
  obtain ⟨s, hput, hs⟩ := exists_slHolds_oneRow
  use s, hput
  obtain ⟨n₁, n₂, n₃, _, rows, hsl, hrdb, htdb, hiff⟩ :=
    (range_agree_iff hs (listRocksdb_iterates oneRow) (listTidesdb_iterates oneRow) [] [5] 0
      (show oneRow.entries.length + 1 < 3 by decide)).1 Unit (fun _ _ _ => (0, ())) ()
  use n₁, n₂, n₃, rows, hsl, hrdb, htdb
  apply hiff.mpr
  have hrows : leading 0 (oneRow.slice [] [5]) = [([1], [2])] := by decide
  rw [hrows]
  exact ⟨rfl, trivial⟩

/-- The three engines with one row, and a callback that stops at it: the skiplist returns
`0` and the others `1`. -/
theorem range_not_agree :
  ∃ s, slPut randLevel 3 (skiplistBackendOpen 1) [1] [2] = some (0, s) ∧
    slRange 3 s [] [5] 0 (recording (fun _ _ _ => (1, ()))) ((), [])
      = some (0, ((), [([1], [2])])) ∧
    rdbRange listRocksdb 3 oneRow [] [5] 0 (recording (fun _ _ _ => (1, ()))) ((), [])
      = some (1, ((), [([1], [2])])) ∧
    tdbRange listTidesdb 3 ⟨oneRow, ()⟩ [] [5] 0 (recording (fun _ _ _ => (1, ()))) ((), [])
      = some (1, ((), [([1], [2])]))
  := by
  obtain ⟨s, hput, hs⟩ := exists_slHolds_oneRow
  have hrows : leading 0 (oneRow.slice [] [5]) = [([1], [2])] := by decide
  use s, hput
  and_intros
  · rw [slRange_spec hs [] [5] 0 _ _ (show oneRow.entries.length + 1 < 3 by decide), hrows]
    rfl
  · decide
  · decide

end Keybench
