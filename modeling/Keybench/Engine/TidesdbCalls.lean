import Keybench.Engine.Tidesdb
import Keybench.Kv.Backend

/-!
# The operations of the TidesDB engine

`TidesdbEngine` are the calls the engine makes on TidesDB, which may answer anything and keep
their state in a world.  The operations note their calls, in order, with what each has
answered (`TdbCall`).  A write operation begins a transaction, writes its elements until one
fails, commits when none has failed, and frees the transaction (`WriteTrace`).
-/

namespace Keybench

/-! ## Calls -/

/-- A buffer that is handed out: its address and its bytes. -/
abbrev TdbBuf (Ptr : Type) : Type := Ptr × Bytes

/-- The calls of TidesDB, and the codes that the engine looks at. -/
structure TidesdbEngine (W D Cf Txn It Ptr : Type) where
  /-- `TDB_ERR_LOCKED`. -/
  errLocked : ℤ
  /-- `TDB_ERR_CONFLICT`. -/
  errConflict : ℤ
  /-- `TDB_ERR_NOT_FOUND`. -/
  errNotFound : ℤ
  /-- `tidesdb_txn_begin`. -/
  txnBegin : W → D → ℤ × Txn × W
  /-- `tidesdb_txn_put`, with a time to live. -/
  txnPut : W → Txn → Cf → Bytes → Bytes → ℤ → ℤ × W
  /-- `tidesdb_txn_delete`. -/
  txnDelete : W → Txn → Cf → Bytes → ℤ × W
  /-- `tidesdb_txn_get`: the value may be `NULL`. -/
  txnGet : W → Txn → Cf → Bytes → ℤ × Option (TdbBuf Ptr) × W
  /-- `tidesdb_txn_commit`. -/
  txnCommit : W → Txn → ℤ × W
  /-- `tidesdb_txn_free`. -/
  txnFree : W → Txn → W
  /-- `tidesdb_iter_new`. -/
  iterNew : W → Txn → Cf → ℤ × It × W
  /-- `tidesdb_iter_seek`. -/
  iterSeek : W → It → Bytes → W
  /-- `tidesdb_iter_valid`. -/
  iterValid : W → It → Bool × W
  /-- `tidesdb_iter_key_value`. -/
  iterKeyValue : W → It → ℤ × TdbBuf Ptr × TdbBuf Ptr × W
  /-- `tidesdb_iter_next`. -/
  iterNext : W → It → ℤ × W
  /-- `tidesdb_iter_free`. -/
  iterFree : W → It → W
  /-- `tidesdb_free`. -/
  free : W → Ptr → W

/-- A call with what it answered. -/
inductive TdbCall (Txn It Ptr : Type) where
  | txnBegin (rc : ℤ) (txn : Txn)
  /-- `tidesdb_txn_put` or `tidesdb_txn_delete`. -/
  | txnWrite (txn : Txn) (w : KvWrite) (rc : ℤ)
  | txnGet (txn : Txn) (rc : ℤ) (val : Option Ptr)
  | txnCommit (txn : Txn) (rc : ℤ)
  | txnFree (txn : Txn)
  | iterNew (txn : Txn) (rc : ℤ) (it : It)
  | iterSeek (it : It)
  | iterValid (it : It)
  | iterKeyValue (it : It) (rc : ℤ) (k v : Ptr)
  /-- The engine reads a key, or hands a row to the callback. -/
  | read (ps : List Ptr)
  | iterNext (it : It) (rc : ℤ)
  | iterFree (it : It)
  | free (p : Ptr)

/-- The world and the calls made on it. -/
structure TdbRun (W Txn It Ptr : Type) where
  /-- The world. -/
  world : W
  /-- The calls, in order. -/
  calls : List (TdbCall Txn It Ptr)

variable {W D Cf Txn It Ptr σ : Type}

/-- The run after a call. -/
def TdbRun.note (r : TdbRun W Txn It Ptr) (world : W) (c : TdbCall Txn It Ptr) :
    TdbRun W Txn It Ptr :=
  ⟨world, r.calls ++ [c]⟩

@[simp]
theorem TdbRun.note_calls (r : TdbRun W Txn It Ptr) (world : W) (c : TdbCall Txn It Ptr) :
  (r.note world c).calls = r.calls ++ [c]
  := rfl

@[simp]
theorem TdbRun.note_world (r : TdbRun W Txn It Ptr) (world : W) (c : TdbCall Txn It Ptr) :
  (r.note world c).world = world
  := rfl

/-- `TDB_NO_TTL`. -/
def tdbNoTtl : ℤ := 0

section Operations

variable (E : TidesdbEngine W D Cf Txn It Ptr) (t : Tdb D Cf)

/-- `tdb_retryable`. -/
def tdbRetryable (rc : ℤ) : Bool := rc = E.errLocked || rc = E.errConflict

/-- `tidesdb_txn_put` or `tidesdb_txn_delete` on the column family. -/
def TidesdbEngine.txnWrite (w : W) (txn : Txn) : KvWrite → ℤ × W
  | .put k v => E.txnPut w txn t.cf k v tdbNoTtl
  | .del k => E.txnDelete w txn t.cf k

/-! ## Writing -/

/-- The loop of a write over its elements: it ends when one fails. -/
def tdbElements (txn : Txn) : List KvWrite → ℤ → TdbRun W Txn It Ptr → ℤ × TdbRun W Txn It Ptr
  | [], rc, r => (rc, r)
  | w :: ws, rc, r =>
    if rc = tdbSuccess then
      let (rc, world) := E.txnWrite t r.world txn w
      tdbElements txn ws rc (r.note world (.txnWrite txn w rc))
    else (rc, r)

/-- What the write operations have in common: a transaction of some writes, and its code. -/
def tdbWrite (ws : List KvWrite) (r : TdbRun W Txn It Ptr) : ℤ × TdbRun W Txn It Ptr :=
  let (rc, txn, world) := E.txnBegin r.world t.db
  let r := r.note world (.txnBegin rc txn)
  if rc = tdbSuccess then
    let (rc, r) := tdbElements E t txn ws rc r
    let (rc, r) :=
      if rc = tdbSuccess then
        let (rc, world) := E.txnCommit r.world txn
        (rc, r.note world (.txnCommit txn rc))
      else (rc, r)
    (rc, r.note (E.txnFree r.world txn) (.txnFree txn))
  else (rc, r)

/-- The end of the write operations: success is `ok` and a failure that is not for the moment
is `hard`. -/
def tdbCode (ok hard rc : ℤ) : ℤ :=
  if rc = tdbSuccess then ok else if tdbRetryable E rc then kvRetry else hard

/-- A transaction of some writes, and the answer of the operation. -/
def tdbWriteOp (ok hard : ℤ) (ws : List KvWrite) (r : TdbRun W Txn It Ptr) :
    ℤ × TdbRun W Txn It Ptr :=
  let (rc, r) := tdbWrite E t ws r
  (tdbCode E ok hard rc, r)

/-- `tdb_put`. -/
def tdbPut (k v : Bytes) : TdbRun W Txn It Ptr → ℤ × TdbRun W Txn It Ptr :=
  tdbWriteOp E t 0 (-1) [.put k v]

/-- `tdb_putbatch`. -/
def tdbPutbatch (kvs : List (Bytes × Bytes)) : TdbRun W Txn It Ptr → ℤ × TdbRun W Txn It Ptr :=
  tdbWriteOp E t 0 (-1) (kvs.map (fun kv => .put kv.1 kv.2))

/-- `tdb_delbatch`. -/
def tdbDelbatch (ks : List Bytes) : TdbRun W Txn It Ptr → ℤ × TdbRun W Txn It Ptr :=
  tdbWriteOp E t 0 (-1) (ks.map .del)

/-- `tdb_del`, which answers `0` when it fails. -/
def tdbDel (k : Bytes) : TdbRun W Txn It Ptr → ℤ × TdbRun W Txn It Ptr :=
  tdbWriteOp E t 1 0 [.del k]

/-! ## Reading -/

/-- `tdb_get`: the code and the copied value. -/
def tdbGet (k : Bytes) (r : TdbRun W Txn It Ptr) : ℤ × Option Bytes × TdbRun W Txn It Ptr :=
  let (rc, txn, world) := E.txnBegin r.world t.db
  let r := r.note world (.txnBegin rc txn)
  if rc ≠ tdbSuccess then (kvErr, none, r)
  else
    let (rc, val, world) := E.txnGet r.world txn t.cf k
    let r := r.note world (.txnGet txn rc (val.map Prod.fst))
    let r := r.note (E.txnFree r.world txn) (.txnFree txn)
    match val with
    | some (p, bytes) =>
      if rc = tdbSuccess then
        let r := r.note r.world (.read [p])
        (1, some bytes, r.note (E.free r.world p) (.free p))
      else if rc = E.errNotFound then (0, none, r)
      else (kvErr, none, r)
    | none => if rc = E.errNotFound then (0, none, r) else (kvErr, none, r)

/-- A callback on rows, which may change the world. -/
abbrev TdbCallback (W σ : Type) : Type := σ × W → Bytes → Bytes → ℤ × σ × W

/-- What the loop of `tdb_range` does with a row: it hands the row to the callback unless its
key is past `hi`, and frees the key and the value.  It gives the number of rows and whether the
loop ends here. -/
def tdbRow (hi : Bytes) (cb : TdbCallback W σ) (k v : TdbBuf Ptr) (n : ℤ) (st : σ)
    (r : TdbRun W Txn It Ptr) : ℤ × Bool × σ × TdbRun W Txn It Ptr :=
  let r := r.note r.world (.read [k.1])
  let pastHi := decide (0 ≤ kvKeycmp k.2 hi)
  let (n, cbStop, st, r) :=
    if pastHi then (n, (0 : ℤ), st, r)
    else
      let (stop, st, world) := cb (st, r.world) k.2 v.2
      (n + 1, stop, st, r.note world (.read [k.1, v.1]))
  let r := r.note (E.free r.world k.1) (.free k.1)
  let r := r.note (E.free r.world v.1) (.free v.1)
  (n, pastHi || cbStop ≠ 0, st, r)

/-- The loop of `tdb_range` after `n` rows.  It gives no code while it has not ended. -/
def tdbRows (hi : Bytes) (limit : ℤ) (cb : TdbCallback W σ) (it : It) :
    ℕ → ℤ → σ → TdbRun W Txn It Ptr → Option (ℤ × σ) × TdbRun W Txn It Ptr
  | 0, _, _, r => (none, r)
  | fuel + 1, n, st, r =>
    let (valid, world) := E.iterValid r.world it
    let r := r.note world (.iterValid it)
    if valid ∧ (limit ≤ 0 ∨ n < limit) then
      let (rc, k, v, world) := E.iterKeyValue r.world it
      let r := r.note world (.iterKeyValue it rc k.1 v.1)
      if rc ≠ tdbSuccess then (some (n, st), r)
      else
        let (n, stop, st, r) := tdbRow E hi cb k v n st r
        if stop then (some (n, st), r)
        else
          let (rc, world) := E.iterNext r.world it
          let r := r.note world (.iterNext it rc)
          if rc ≠ tdbSuccess then (some (n, st), r)
          else tdbRows hi limit cb it fuel n st r
    else (some (n, st), r)

/-- `tdb_range` with its calls: the row count and the last state of the callback, when the loop
ends. -/
def tdbRangeCalls (fuel : ℕ) (lo hi : Bytes) (limit : ℤ) (cb : TdbCallback W σ) (st : σ)
    (r : TdbRun W Txn It Ptr) : Option (ℤ × σ) × TdbRun W Txn It Ptr :=
  let (rc, txn, world) := E.txnBegin r.world t.db
  let r := r.note world (.txnBegin rc txn)
  if rc ≠ tdbSuccess then (some (0, st), r)
  else
    let (rc, it, world) := E.iterNew r.world txn t.cf
    let r := r.note world (.iterNew txn rc it)
    if rc ≠ tdbSuccess then
      (some (0, st), r.note (E.txnFree r.world txn) (.txnFree txn))
    else
      let r := r.note (E.iterSeek r.world it lo) (.iterSeek it)
      match tdbRows E hi limit cb it fuel 0 st r with
      | (none, r) => (none, r)
      | (some out, r) =>
        let r := r.note (E.iterFree r.world it) (.iterFree it)
        (some out, r.note (E.txnFree r.world txn) (.txnFree txn))

end Operations

/-! ## Ranges without their calls -/

/-- The calls of a range, with the iterator's own state as the world. -/
def TidesdbApi.engine (api : TidesdbApi D Cf Txn It) :
    TidesdbEngine It D Cf Txn Unit Unit where
  errLocked := 1
  errConflict := 2
  errNotFound := 3
  txnBegin w d := ((api.txnBegin d).1, (api.txnBegin d).2, w)
  txnPut w _ _ _ _ _ := (tdbSuccess, w)
  txnDelete w _ _ _ := (tdbSuccess, w)
  txnGet w _ _ _ := (3, none, w)
  txnCommit w _ := (tdbSuccess, w)
  txnFree w _ := w
  iterNew _ txn cf := ((api.iterNew txn cf).1, (), (api.iterNew txn cf).2)
  iterSeek w _ lo := api.iterSeek w lo
  iterValid w _ := (api.iterValid w, w)
  iterKeyValue w _ := ((api.iterKeyValue w).1, ((), (api.iterKeyValue w).2.1),
    ((), (api.iterKeyValue w).2.2), w)
  iterNext w _ := api.iterNext w
  iterFree w _ := w
  free w _ := w

/-- A callback that leaves the world as it is. -/
def tdbCallback (cb : RowCallback σ Bytes Bytes) : TdbCallback W σ :=
  fun sw k v => ((cb sw.1 k v).1, (cb sw.1 k v).2, sw.2)

section Plain

variable (api : TidesdbApi D Cf Txn It) (hi : Bytes) (limit : ℤ) (cb : RowCallback σ Bytes Bytes)

theorem engine_iterValid (w : It) :
  api.engine.iterValid w () = (api.iterValid w, w)
  := rfl

theorem engine_iterKeyValue (w : It) :
  api.engine.iterKeyValue w () = ((api.iterKeyValue w).1, ((), (api.iterKeyValue w).2.1),
    ((), (api.iterKeyValue w).2.2), w)
  := rfl

theorem engine_iterNext (w : It) :
  api.engine.iterNext w () = api.iterNext w
  := rfl

/-- A row past `hi` ends the loop. -/
theorem tdbRow_past {k : Bytes} (hk : 0 ≤ kvKeycmp k hi) (v : Bytes) (n : ℤ) (st : σ)
    (r : TdbRun It Txn Unit Unit) :
  ∃ r' : TdbRun It Txn Unit Unit, r'.world = r.world ∧
    tdbRow api.engine hi (tdbCallback cb) ((), k) ((), v) n st r = (n, true, st, r')
  := by
  rw [tdbRow]
  simp only [decide_eq_true hk, if_true, Bool.true_or]
  refine ⟨_, ?_, rfl⟩
  rfl

/-- Another row is handed to the callback. -/
theorem tdbRow_below {k : Bytes} (hk : ¬ 0 ≤ kvKeycmp k hi) (v : Bytes) (n : ℤ) (st : σ)
    (r : TdbRun It Txn Unit Unit) :
  ∃ r' : TdbRun It Txn Unit Unit, r'.world = r.world ∧
    tdbRow api.engine hi (tdbCallback cb) ((), k) ((), v) n st r
      = (n + 1, decide ((cb st k v).1 ≠ 0), (cb st k v).2, r')
  := by
  rw [tdbRow]
  simp only [decide_eq_false hk, Bool.false_eq_true, if_false, Bool.false_or, tdbCallback]
  refine ⟨_, ?_, rfl⟩
  rfl

/-- The loop with its calls has the outcome of the loop without them. -/
theorem tdbRows_engine (fuel : ℕ) (n : ℤ) (st : σ) (r : TdbRun It Txn Unit Unit) :
  (tdbRows api.engine hi limit (tdbCallback cb) () fuel n st r).1
    = tdbRangeLoop api hi limit cb fuel r.world n st
  := by
  induction fuel generalizing n st r with
  | zero => rfl
  | succ fuel ih =>
    obtain ⟨valid, world, hvalid⟩ : ∃ valid world, api.engine.iterValid r.world () = (valid, world) :=
      ⟨_, _, rfl⟩
    obtain ⟨rc, k, v, world', hkv⟩ : ∃ rc k v world', api.engine.iterKeyValue world ()
        = (rc, k, v, world') := ⟨_, _, _, _, rfl⟩
    rw [tdbRows, tdbRangeLoop]
    simp only [hvalid, TdbRun.note_world, hkv]
    obtain ⟨rfl, rfl⟩ := Prod.mk.inj ((engine_iterValid api r.world).symm.trans hvalid)
    obtain ⟨rfl, hbufs⟩ := Prod.mk.inj ((engine_iterKeyValue api r.world).symm.trans hkv)
    obtain ⟨rfl, hval⟩ := Prod.mk.inj hbufs
    obtain ⟨rfl, rfl⟩ := Prod.mk.inj hval
    by_cases hcond : api.iterValid r.world = true ∧ (limit ≤ 0 ∨ n < limit)
    · rw [if_pos hcond, if_pos hcond]
      by_cases hrc : (api.iterKeyValue r.world).1 = tdbSuccess
      · rw [if_neg (not_not.mpr hrc), if_neg (not_not.mpr hrc)]
        by_cases hk : 0 ≤ kvKeycmp (api.iterKeyValue r.world).2.1 hi
        · obtain ⟨r', -, hrow⟩ := tdbRow_past api hi cb hk (api.iterKeyValue r.world).2.2 n st
            ((r.note r.world (.iterValid ())).note r.world
              (.iterKeyValue () (api.iterKeyValue r.world).1 () ()))
          simp only [hrow, decide_eq_true hk, if_true, true_or]
        · obtain ⟨r', hworld, hrow⟩ := tdbRow_below api hi cb hk (api.iterKeyValue r.world).2.2 n st
            ((r.note r.world (.iterValid ())).note r.world
              (.iterKeyValue () (api.iterKeyValue r.world).1 () ()))
          rw [TdbRun.note_world] at hworld
          simp only [hrow, decide_eq_false hk, Bool.false_eq_true, if_false, false_or,
            decide_eq_true_eq, engine_iterNext, hworld]
          split_ifs
          · rfl
          · rfl
          · apply ih
      · rw [if_pos hrc, if_pos hrc]
    · rw [if_neg hcond, if_neg hcond]

/-- `tdb_range` with its calls has the outcome of `tdb_range` without them. -/
theorem tdbRangeCalls_engine (t : Tdb D Cf) (fuel : ℕ) (lo : Bytes) (st : σ)
    (r : TdbRun It Txn Unit Unit) :
  (tdbRangeCalls api.engine t fuel lo hi limit (tdbCallback cb) st r).1
    = tdbRange api fuel t lo hi limit cb st
  := by
  have hbegin : api.engine.txnBegin r.world t.db
      = ((api.txnBegin t.db).1, (api.txnBegin t.db).2, r.world) := rfl
  have hnew : ∀ w txn, api.engine.iterNew w txn t.cf
      = ((api.iterNew txn t.cf).1, (), (api.iterNew txn t.cf).2) := fun _ _ => rfl
  have hseek : ∀ w, api.engine.iterSeek w () lo = api.iterSeek w lo := fun _ => rfl
  rw [tdbRangeCalls, tdbRange]
  simp only [hbegin, hnew, TdbRun.note_world, hseek]
  split_ifs
  · rfl
  · rfl
  · refine Eq.trans ?_ (tdbRows_engine api hi limit cb fuel 0 st
      (((r.note r.world (.txnBegin (api.txnBegin t.db).1 (api.txnBegin t.db).2)).note
        (api.iterNew (api.txnBegin t.db).2 t.cf).2
        (.iterNew (api.txnBegin t.db).2 (api.iterNew (api.txnBegin t.db).2 t.cf).1 ())).note
        (api.iterSeek (api.iterNew (api.txnBegin t.db).2 t.cf).2 lo) (.iterSeek ())))
    split
    · rename_i hrows
      rw [hrows]
    · rename_i hrows
      rw [hrows]

end Plain

end Keybench
