import Keybench.Engine.WriteCodes
import Keybench.Kv.Reliable
import Keybench.Skiplist.Held

/-!
# The engines as maps

When no call of RocksDB or TidesDB fails and they hold what was written to them, their engines
are reliable, as the skiplist always is.
-/

namespace Keybench

/-! ## The skiplist -/

/-- The skiplist is reliable. -/
theorem skiplist_reliable {R : Type} {rand : R → ℕ × R}
    (hrand : ∀ r, 0 < (rand r).1 ∧ (rand r).1 ≤ slMaxLevel) :
  (skiplistBackend hrand).Reliable HeldSkiplist.contents
  := by
  constructor
  case put =>
    intro s k v
    exact ⟨s.put_code hrand k v, rfl⟩
  case del =>
    intro s k
    have hcode : ((skiplistBackend hrand).del s k).1 = _ := s.del_code k
    constructor
    · rw [hcode]
      split_ifs <;> decide
    · rfl
  case putbatch =>
    rintro f ⟨⟩
  case delbatch =>
    rintro f ⟨⟩

/-! ## RocksDB -/

section Rocksdb

variable {W D : Type}

/-- The operations of the RocksDB engine. -/
def rocksdbBackend (E : RocksdbEngine W D) (db : D) (reads : KvReads W) : KvBackend W where
  toKvReads := reads
  put w k v := rdbPut E db w k v
  putbatch := some (rdbPutbatch E db)
  del w k := rdbDel E db w k
  delbatch := some (rdbDelbatch E db)

/-- RocksDB is a map: no write fails, and the contents are changed by it. -/
structure RocksdbEngine.IsMap (E : RocksdbEngine W D) (db : D) (contents : W → Contents) :
    Prop where
  put : ∀ w k v, (E.put w db k v).1 = none ∧
    contents (E.put w db k v).2 = (contents w).insert k v
  delete : ∀ w k, (E.delete w db k).1 = none ∧
    contents (E.delete w db k).2 = (contents w).erase k
  write : ∀ w wb, (E.write w db wb).1 = none ∧
    contents (E.write w db wb).2 = applyAll (contents w) wb

variable {E : RocksdbEngine W D} {db : D} {contents : W → Contents}

/-- A delete on RocksDB answers that the key was present. -/
theorem RocksdbEngine.IsMap.del_code (h : E.IsMap db contents) (w : W) (k : Bytes) :
  (rdbDel E db w k).1 = 1
  := by
  have herr := (h.delete w k).1
  simp only [rdbDel, herr, rdbCode]

/-- RocksDB is reliable when it is a map. -/
theorem RocksdbEngine.IsMap.reliable (h : E.IsMap db contents) (reads : KvReads W) :
  (rocksdbBackend E db reads).Reliable contents
  := by
  constructor
  case put =>
    intro w k v
    obtain ⟨herr, hcontents⟩ := h.put w k v
    constructor
    · simp only [rocksdbBackend, rdbPut, herr, rdbCode]
    · apply hcontents
  case putbatch =>
    intro f hf w kvs
    obtain rfl := Option.some.inj hf
    obtain ⟨herr, hcontents⟩ := h.write w (kvs.map (fun kv => .put kv.1 kv.2))
    constructor
    · simp only [rdbPutbatch, herr, rdbCode]
    · apply hcontents
  case del =>
    intro w k
    have hcode : ((rocksdbBackend E db reads).del w k).1 = 1 := h.del_code w k
    constructor
    · rw [hcode]
      apply zero_le_one
    · apply (h.delete w k).2
  case delbatch =>
    intro f hf w ks
    obtain rfl := Option.some.inj hf
    obtain ⟨herr, hcontents⟩ := h.write w (ks.map .del)
    constructor
    · simp only [rdbDelbatch, herr, rdbCode, le_refl]
    · apply hcontents

end Rocksdb

/-! ## TidesDB -/

section Tidesdb

variable {W D Cf Txn It Ptr : Type}

/-- The operations of the TidesDB engine. -/
def tidesdbBackend (E : TidesdbEngine W D Cf Txn It Ptr) (t : Tdb D Cf)
    (reads : KvReads (TdbRun W Txn It Ptr)) : KvBackend (TdbRun W Txn It Ptr) where
  toKvReads := reads
  put r k v := tdbPut E t k v r
  putbatch := some (fun r kvs => tdbPutbatch E t kvs r)
  del r k := tdbDel E t k r
  delbatch := some (fun r ks => tdbDelbatch E t ks r)

/-- TidesDB is a map: no call of a write fails, a transaction gathers the writes made in it, and
the contents are changed by a commit. -/
structure TidesdbEngine.IsMap (E : TidesdbEngine W D Cf Txn It Ptr) (t : Tdb D Cf)
    (contents : W → Contents) (pending : W → Txn → List KvWrite) : Prop where
  begin : ∀ w, (E.txnBegin w t.db).1 = tdbSuccess ∧
    contents (E.txnBegin w t.db).2.2 = contents w ∧
    pending (E.txnBegin w t.db).2.2 (E.txnBegin w t.db).2.1 = []
  write : ∀ w txn x, (E.txnWrite t w txn x).1 = tdbSuccess ∧
    contents (E.txnWrite t w txn x).2 = contents w ∧
    pending (E.txnWrite t w txn x).2 txn = pending w txn ++ [x]
  commit : ∀ w txn, (E.txnCommit w txn).1 = tdbSuccess ∧
    contents (E.txnCommit w txn).2 = applyAll (contents w) (pending w txn)
  free : ∀ w txn, contents (E.txnFree w txn) = contents w

variable {E : TidesdbEngine W D Cf Txn It Ptr} {t : Tdb D Cf} {contents : W → Contents}
  {pending : W → Txn → List KvWrite} (h : E.IsMap t contents pending)

include h

/-- The loop of a write gathers its elements. -/
theorem TidesdbEngine.IsMap.elements (txn : Txn) (ws : List KvWrite) (r : TdbRun W Txn It Ptr) :
  (tdbElements E t txn ws tdbSuccess r).1 = tdbSuccess ∧
    contents (tdbElements E t txn ws tdbSuccess r).2.world = contents r.world ∧
    pending (tdbElements E t txn ws tdbSuccess r).2.world txn = pending r.world txn ++ ws
  := by
  induction ws generalizing r with
  | nil => exact ⟨rfl, rfl, (List.append_nil _).symm⟩
  | cons x ws ih =>
    obtain ⟨hrc, hcontents, hpending⟩ := h.write r.world txn x
    obtain ⟨ihrc, ihcontents, ihpending⟩ :=
      ih (r.note (E.txnWrite t r.world txn x).2 (.txnWrite txn x tdbSuccess))
    rw [tdbElements, if_pos rfl]
    simp only [hrc]
    and_intros
    · apply ihrc
    · rw [ihcontents]
      apply hcontents
    · rw [ihpending, TdbRun.note_world, hpending, List.append_assoc, List.singleton_append]

/-- A transaction of some writes succeeds and makes them. -/
theorem TidesdbEngine.IsMap.writeOp (ok hard : ℤ) (ws : List KvWrite) (r : TdbRun W Txn It Ptr) :
  (tdbWriteOp E t ok hard ws r).1 = ok ∧
    contents (tdbWriteOp E t ok hard ws r).2.world = applyAll (contents r.world) ws
  := by
  obtain ⟨rc, txn, world, hbegin⟩ : ∃ rc txn world, E.txnBegin r.world t.db = (rc, txn, world) :=
    ⟨_, _, _, rfl⟩
  obtain ⟨hrc, hcontents, hpending⟩ := h.begin r.world
  rw [hbegin] at hrc hcontents hpending
  dsimp only at hrc hcontents hpending
  subst hrc
  obtain ⟨erc, econtents, ependings⟩ :=
    h.elements txn ws (r.note world (.txnBegin tdbSuccess txn))
  obtain ⟨crc, ccontents⟩ :=
    h.commit (tdbElements E t txn ws tdbSuccess (r.note world (.txnBegin tdbSuccess txn))).2.world
      txn
  simp only [tdbWriteOp, tdbWrite, hbegin, if_true, erc, crc, tdbCode, true_and]
  rw [TdbRun.note_world, h.free, TdbRun.note_world, ccontents, econtents, ependings,
    TdbRun.note_world, hcontents, hpending, List.nil_append]

/-- TidesDB is reliable when it is a map. -/
theorem TidesdbEngine.IsMap.reliable (reads : KvReads (TdbRun W Txn It Ptr)) :
  (tidesdbBackend E t reads).Reliable (fun r => contents r.world)
  := by
  constructor
  case put =>
    intro r k v
    apply h.writeOp 0 (-1) [.put k v] r
  case putbatch =>
    intro f hf r kvs
    obtain rfl := Option.some.inj hf
    apply h.writeOp 0 (-1) (kvs.map (fun kv => .put kv.1 kv.2)) r
  case del =>
    intro r k
    obtain ⟨hcode, hcontents⟩ := h.writeOp 1 0 [.del k] r
    have hcode' : ((tidesdbBackend E t reads).del r k).1 = 1 := hcode
    constructor
    · rw [hcode']
      apply zero_le_one
    · apply hcontents
  case delbatch =>
    intro f hf r ks
    obtain rfl := Option.some.inj hf
    obtain ⟨hcode, hcontents⟩ := h.writeOp 0 (-1) (ks.map .del) r
    constructor
    · apply hcode.ge
    · apply hcontents

end Tidesdb

end Keybench
