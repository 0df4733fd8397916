import Keybench.Engine.TidesdbBrackets
import Keybench.Libc.Chars

/-!
# The codes of the write operations

The write operations of RocksDB and TidesDB turn the status of the engine into a code: a code
that is not negative for success, `kvRetry` for a status that is worth waiting out, and another
negative code for any other failure.  All of them do so except that a delete answers `0`, which
says that the key was absent, when the engine has failed (`classified_iff`).
-/

namespace Keybench

/-! ## RocksDB -/

/-- The calls of RocksDB that write, on an open database with its write options.  Each answers
with an error string, or with none. -/
structure RocksdbEngine (W D : Type) where
  /-- `rocksdb_put`. -/
  put : W → D → Bytes → Bytes → Option Bytes × W
  /-- `rocksdb_delete`. -/
  delete : W → D → Bytes → Option Bytes × W
  /-- `rocksdb_write` of a write batch. -/
  write : W → D → List KvWrite → Option Bytes × W

/-- `strncmp (s, t, n) == 0`. -/
def strncmpEq (s t : Bytes) (n : ℕ) : Bool := s.take n = t.take n

/-- `rdb_retryable`. -/
def rdbRetryable (err : Bytes) : Bool :=
  strncmpEq err (ascii "Busy") 4 || strncmpEq err (ascii "Result incomplete") 17
    || strncmpEq err (ascii "Operation failed. Try again.") 28

/-- The end of the write operations: success is `ok` and a failure that is not for the moment
is `hard`. -/
def rdbCode (ok hard : ℤ) : Option Bytes → ℤ
  | some err => if rdbRetryable err then kvRetry else hard
  | none => ok

section Rocksdb

variable {W D : Type} (E : RocksdbEngine W D) (db : D)

/-- `rdb_put`. -/
def rdbPut (w : W) (k v : Bytes) : ℤ × W :=
  let (err, w) := E.put w db k v
  (rdbCode 0 (-1) err, w)

/-- `rdb_putbatch`. -/
def rdbPutbatch (w : W) (kvs : List (Bytes × Bytes)) : ℤ × W :=
  let wb := kvs.map (fun kv => KvWrite.put kv.1 kv.2)
  let (err, w) := E.write w db wb
  (rdbCode 0 (-1) err, w)

/-- `rdb_delbatch`. -/
def rdbDelbatch (w : W) (ks : List Bytes) : ℤ × W :=
  let wb := ks.map KvWrite.del
  let (err, w) := E.write w db wb
  (rdbCode 0 (-1) err, w)

/-- `rdb_del`, which answers `0` when it fails. -/
def rdbDel (w : W) (k : Bytes) : ℤ × W :=
  let (err, w) := E.delete w db k
  (rdbCode 1 0 err, w)

/-- The operation of a request. -/
def rdbRequest (w : W) : KvRequest → ℤ × W
  | .put k v => rdbPut E db w k v
  | .putbatch kvs => rdbPutbatch E db w kvs
  | .del k => rdbDel E db w k
  | .delbatch ks => rdbDelbatch E db w ks

/-- The error string of RocksDB for a request. -/
def rdbStatus (w : W) : KvRequest → Option Bytes
  | .put k v => (E.put w db k v).1
  | .putbatch kvs => (E.write w db (kvs.map (fun kv => .put kv.1 kv.2))).1
  | .del k => (E.delete w db k).1
  | .delbatch ks => (E.write w db (ks.map .del)).1

end Rocksdb

/-! ## TidesDB -/

section Tidesdb

variable {W D Cf Txn It Ptr : Type} (E : TidesdbEngine W D Cf Txn It Ptr) (t : Tdb D Cf)

/-- The operation of a request. -/
def tdbRequest (r : TdbRun W Txn It Ptr) : KvRequest → ℤ × TdbRun W Txn It Ptr
  | .put k v => tdbPut E t k v r
  | .putbatch kvs => tdbPutbatch E t kvs r
  | .del k => tdbDel E t k r
  | .delbatch ks => tdbDelbatch E t ks r

/-- The status of a call of a write. -/
def TdbCall.status : TdbCall Txn It Ptr → Option ℤ
  | .txnBegin rc _ => some rc
  | .txnWrite _ _ rc => some rc
  | .txnCommit _ rc => some rc
  | _ => none

/-- The status of TidesDB in some calls: the first that is no success. -/
def tdbReported (calls : List (TdbCall Txn It Ptr)) : ℤ :=
  ((calls.filterMap TdbCall.status).find? (fun rc => rc ≠ tdbSuccess)).getD tdbSuccess

/-- The status of TidesDB for a request. -/
def tdbStatus (w : W) (q : KvRequest) : ℤ :=
  tdbReported (tdbRequest E t (⟨w, []⟩ : TdbRun W Txn It Ptr) q).2.calls

end Tidesdb

/-! ## What a status means -/

/-- What an engine reports. -/
inductive EngineReport where
  | success
  | transient
  | hard
deriving DecidableEq

/-- What an error string of RocksDB means. -/
def rdbReport : Option Bytes → EngineReport
  | some err => if rdbRetryable err then .transient else .hard
  | none => .success

/-- What a status of TidesDB means. -/
def tdbReport {W D Cf Txn It Ptr : Type} (E : TidesdbEngine W D Cf Txn It Ptr) (rc : ℤ) :
    EngineReport :=
  if rc = tdbSuccess then .success else if tdbRetryable E rc then .transient else .hard

/-- A code says what the engine has reported. -/
def Classified (report : EngineReport) (code : ℤ) : Prop :=
  (0 ≤ code ↔ report = .success) ∧ (code = kvRetry ↔ report = .transient) ∧
    (report = .hard → code < 0 ∧ code ≠ kvRetry)

instance decidableClassified (report : EngineReport) (code : ℤ) :
    Decidable (Classified report code) :=
  inferInstanceAs (Decidable ((0 ≤ code ↔ report = .success) ∧
    (code = kvRetry ↔ report = .transient) ∧ (report = .hard → code < 0 ∧ code ≠ kvRetry)))

/-- Whether a request deletes one key. -/
def KvRequest.isDel : KvRequest → Bool
  | .del _ => true
  | _ => false

/-- The code for a report: success is `ok` and a failure that is not for the moment is
`hard`. -/
def EngineReport.code (ok hard : ℤ) : EngineReport → ℤ
  | .success => ok
  | .transient => kvRetry
  | .hard => hard

/-- The code says what was reported when it is negative for a hard failure or there is none. -/
theorem classified_code_iff {ok hard : ℤ} (hok : 0 ≤ ok) (hhard : hard ≠ kvRetry)
    (report : EngineReport) :
  Classified report (report.code ok hard) ↔ (0 ≤ hard → report ≠ .hard)
  := by
  have hretry : ¬ 0 ≤ kvRetry ∧ ok ≠ kvRetry := by
    constructor
    · decide
    · rintro rfl
      revert hok
      decide
  cases report with
  | success => simp [Classified, EngineReport.code, hok, hretry.2]
  | transient => simp [Classified, EngineReport.code, hretry.1]
  | hard => simp [Classified, EngineReport.code, hhard]

/-- The code of a RocksDB operation is that for the report. -/
theorem rdbCode_eq (ok hard : ℤ) (err : Option Bytes) :
  rdbCode ok hard err = (rdbReport err).code ok hard
  := by
  cases err with
  | none => rfl
  | some err =>
    rw [rdbCode, rdbReport]
    split_ifs <;> rfl

/-- The code of a TidesDB operation is that for the report. -/
theorem tdbCode_eq {W D Cf Txn It Ptr : Type} (E : TidesdbEngine W D Cf Txn It Ptr)
    (ok hard rc : ℤ) :
  tdbCode E ok hard rc = (tdbReport E rc).code ok hard
  := by
  rw [tdbCode, tdbReport]
  split_ifs <;> rfl

/-- The status in the calls of a transaction is its code. -/
theorem WriteTrace.reported {Txn It Ptr : Type} {ws : List KvWrite}
    {calls : List (TdbCall Txn It Ptr)} {rc : ℤ} (h : WriteTrace ws calls rc) :
  tdbReported calls = rc
  := by
  have hdone : ∀ (txn : Txn) (done : List KvWrite) (rest : List (TdbCall Txn It Ptr)),
      tdbReported (.txnBegin tdbSuccess txn ::
        (done.map (fun w => .txnWrite txn w tdbSuccess) ++ rest)) = tdbReported rest := by
    intro txn done rest
    induction done with
    | nil => simp [tdbReported, TdbCall.status]
    | cons w done ih =>
      rw [← ih]
      simp [tdbReported, TdbCall.status]
  cases h with
  | refused txn h => simp [tdbReported, TdbCall.status, h]
  | failed txn h hws =>
    rw [hdone]
    simp [tdbReported, TdbCall.status, h]
  | committed txn =>
    rw [hdone]
    by_cases h : rc = tdbSuccess
    · simp [tdbReported, TdbCall.status, h]
    · simp [tdbReported, TdbCall.status, h]

/-- The code of a TidesDB write operation is that for the report. -/
theorem tdbWriteOp_code {W D Cf Txn It Ptr : Type} (E : TidesdbEngine W D Cf Txn It Ptr)
    (t : Tdb D Cf) (ok hard : ℤ) (ws : List KvWrite) (w : W) :
  (tdbWriteOp E t ok hard ws (⟨w, []⟩ : TdbRun W Txn It Ptr)).1
    = (tdbReport E (tdbReported
        (tdbWriteOp E t ok hard ws (⟨w, []⟩ : TdbRun W Txn It Ptr)).2.calls)).code ok hard
  := by
  obtain ⟨calls, hcalls, htrace⟩ := tdbWrite_calls E t ws (⟨w, []⟩ : TdbRun W Txn It Ptr)
  have hsame : (tdbWriteOp E t ok hard ws (⟨w, []⟩ : TdbRun W Txn It Ptr)).2.calls = calls := hcalls
  rw [hsame, htrace.reported, ← tdbCode_eq]
  rfl

/-- The code of a request that has been done. -/
def KvRequest.okCode (q : KvRequest) : ℤ := if q.isDel then 1 else 0

/-- The code of a request that has failed hard. -/
def KvRequest.hardCode (q : KvRequest) : ℤ := if q.isDel then 0 else -1

/-- The code of a RocksDB operation is that for its report. -/
theorem rdbRequest_code {W D : Type} (E : RocksdbEngine W D) (db : D) (w : W) (q : KvRequest) :
  (rdbRequest E db w q).1 = (rdbReport (rdbStatus E db w q)).code q.okCode q.hardCode
  := by
  rw [← rdbCode_eq]
  cases q with
  | put k v => rfl
  | putbatch kvs => rfl
  | del k => rfl
  | delbatch ks => rfl

/-- A TidesDB operation is the transaction of its writes. -/
theorem tdbRequest_eq {W D Cf Txn It Ptr : Type} (E : TidesdbEngine W D Cf Txn It Ptr)
    (t : Tdb D Cf) (r : TdbRun W Txn It Ptr) (q : KvRequest) :
  tdbRequest E t r q = tdbWriteOp E t q.okCode q.hardCode q.writes r
  := by
  cases q with
  | put k v => rfl
  | putbatch kvs => rfl
  | del k => rfl
  | delbatch ks => rfl

/-- A code that is `0` for a hard failure of a delete, and `-1` for another, says what was
reported unless a delete has failed hard. -/
theorem classified_request_iff (q : KvRequest) (report : EngineReport) :
  Classified report (report.code q.okCode q.hardCode) ↔ (q.isDel = true → report ≠ .hard)
  := by
  have hok : 0 ≤ q.okCode := by
    rw [KvRequest.okCode]
    split_ifs <;> decide
  have hhard : q.hardCode ≠ kvRetry := by
    rw [KvRequest.hardCode]
    split_ifs <;> decide
  have hdel : 0 ≤ q.hardCode ↔ q.isDel = true := by
    rw [KvRequest.hardCode]
    split_ifs with h <;> simp [h]
  rw [classified_code_iff hok hhard, hdel]

/-- The write operations of both engines turn a status into the code that says what it means,
except for a delete that has failed. -/
theorem classified_iff (q : KvRequest) :
  (∀ {W D : Type} (E : RocksdbEngine W D) (db : D) (w : W),
      Classified (rdbReport (rdbStatus E db w q)) (rdbRequest E db w q).1
        ↔ (q.isDel = true → rdbReport (rdbStatus E db w q) ≠ .hard)) ∧
    ∀ {W D Cf Txn It Ptr : Type} (E : TidesdbEngine W D Cf Txn It Ptr) (t : Tdb D Cf) (w : W),
      Classified (tdbReport E (tdbStatus E t w q)) (tdbRequest E t (⟨w, []⟩ : TdbRun W Txn It Ptr) q).1
        ↔ (q.isDel = true → tdbReport E (tdbStatus E t w q) ≠ .hard)
  := by
  constructor
  · intro W D E db w
    rw [rdbRequest_code]
    apply classified_request_iff
  · intro W D Cf Txn It Ptr E t w
    have hcode : (tdbRequest E t (⟨w, []⟩ : TdbRun W Txn It Ptr) q).1
        = (tdbReport E (tdbStatus E t w q)).code q.okCode q.hardCode := by
      rw [tdbStatus, tdbRequest_eq]
      apply tdbWriteOp_code
    rw [hcode]
    apply classified_request_iff

/-- A RocksDB that fails. -/
def brokenRocksdb : RocksdbEngine Unit Unit where
  put _ _ _ _ := (some (ascii "IO error: No space left on device"), ())
  delete _ _ _ := (some (ascii "IO error: No space left on device"), ())
  write _ _ _ := (some (ascii "IO error: No space left on device"), ())

/-- A TidesDB that begins no transaction. -/
def brokenTidesdb : TidesdbEngine Unit Unit Unit Unit Unit Unit where
  errLocked := -12
  errConflict := -7
  errNotFound := -3
  txnBegin _ _ := (-4, (), ())
  txnPut _ _ _ _ _ _ := (-4, ())
  txnDelete _ _ _ _ := (-4, ())
  txnGet _ _ _ _ := (-4, none, ())
  txnCommit _ _ := (-4, ())
  txnFree _ _ := ()
  iterNew _ _ _ := (-4, (), ())
  iterSeek _ _ _ := ()
  iterValid _ _ := (false, ())
  iterKeyValue _ _ := (-4, ((), []), ((), []), ())
  iterNext _ _ := (-4, ())
  iterFree _ _ := ()
  free _ _ := ()

/-- A delete that has failed answers as for an absent key on both engines, while a put answers
that it has failed. -/
theorem del_hides_failure :
  (rdbRequest brokenRocksdb () () (.del [1])).1 = 0 ∧
    ¬ Classified (rdbReport (rdbStatus brokenRocksdb () () (.del [1])))
      (rdbRequest brokenRocksdb () () (.del [1])).1 ∧
    (rdbRequest brokenRocksdb () () (.put [1] [2])).1 = -1 ∧
    (tdbRequest brokenTidesdb ⟨(), ()⟩ ⟨(), []⟩ (.del [1])).1 = 0 ∧
    ¬ Classified (tdbReport brokenTidesdb (tdbStatus brokenTidesdb ⟨(), ()⟩ () (.del [1])))
      (tdbRequest brokenTidesdb ⟨(), ()⟩ ⟨(), []⟩ (.del [1])).1 ∧
    (tdbRequest brokenTidesdb ⟨(), ()⟩ ⟨(), []⟩ (.put [1] [2])).1 = -1
  := by
  decide

end Keybench
