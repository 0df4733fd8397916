import Keybench.Engine.Maps

/-!
# What a delete answers

After a history of writes, `kv.del` should answer whether the key was present.  On the skiplist
it does.  RocksDB and TidesDB delete without a lookup, and there `kv.del` answers that the key
was present, whether it was or not (`delTells_iff`).
-/

namespace Keybench

/-- Whether a key is present after a history of writes on an empty store. -/
def present (qs : List KvRequest) (k : Bytes) : Bool :=
  ((applyAll OrderedMap.empty (qs.flatMap KvRequest.writes)).lookup k).isSome

section Engines

variable {S : Type} {be : KvBackend S} {contents : S → Contents}

/-- After a history, `kv.del` answers whether the key is in the contents, on any worker and with
any clock. -/
def DelTells (be : KvBackend S) (h : be.Settles) (contents : S → Contents) (s : S)
    (qs : List KvRequest) (k : Bytes) : Prop :=
  ∀ (C : Type) (clock : C → UInt64 × C) (c : C) (stats : OpStats) (int : Option ℤ),
    (lDel (be.store h clock) [.text k int] ⟨(c, storeRun be h s qs), stats⟩).map Prod.fst
      = some (.boolean ((contents (storeRun be h s qs)).lookup k).isSome)

/-- On a reliable engine `kv.del` answers whether the code of the engine is not zero. -/
theorem delTells_iff_code (hr : be.Reliable contents) {s : S} (hs : contents s = OrderedMap.empty)
    (qs : List KvRequest) (k : Bytes) :
  DelTells be hr.settles contents s qs k
    ↔ decide ((be.del (storeRun be hr.settles s qs) k).1 ≠ 0) = present qs k
  := by
  have hpresent : ((contents (storeRun be hr.settles s qs)).lookup k).isSome = present qs k := by
    rw [hr.contents_storeRun, hs, present]
  have hanswer : ∀ (C : Type) (clock : C → UInt64 × C) (c : C) (stats : OpStats) (int : Option ℤ),
      (lDel (be.store hr.settles clock) [.text k int] ⟨(c, storeRun be hr.settles s qs), stats⟩).map
          Prod.fst
        = some (.boolean (decide ((be.del (storeRun be hr.settles s qs) k).1 ≠ 0))) := by
    intro C clock c stats int
    rw [← hr.storeDel_eq hr.settles]
    rfl
  constructor
  · intro htells
    have hunit := htells Unit (fun u => (0, u)) () statsReset none
    rw [hanswer, hpresent, Option.some.injEq, LuaAnswer.boolean.injEq] at hunit
    apply hunit
  · intro hcode C clock c stats int
    rw [hanswer, hpresent, hcode]

/-- An engine whose deletes always answer `1` answers right when the key is present. -/
theorem delTells_iff_present (hr : be.Reliable contents) {s : S}
    (hs : contents s = OrderedMap.empty) {k : Bytes} (hdel : ∀ s, (be.del s k).1 = 1)
    (qs : List KvRequest) :
  DelTells be hr.settles contents s qs k ↔ present qs k = true
  := by
  rw [delTells_iff_code hr hs, hdel]
  apply eq_comm

end Engines

/-- On the skiplist `kv.del` always answers whether the key was present, and on RocksDB and
TidesDB exactly when it was. -/
theorem delTells_iff (qs : List KvRequest) (k : Bytes) :
  (∀ {R : Type} {rand : R → ℕ × R} (hrand : ∀ r, 0 < (rand r).1 ∧ (rand r).1 ≤ slMaxLevel)
      (rng : R), DelTells (skiplistBackend hrand) (skiplist_reliable hrand).settles
        HeldSkiplist.contents (.new rng) qs k) ∧
    (∀ {W D : Type} (E : RocksdbEngine W D) (db : D) (contents : W → Contents)
      (h : E.IsMap db contents) (reads : KvReads W) (w : W), contents w = OrderedMap.empty →
      (DelTells (rocksdbBackend E db reads) (h.reliable reads).settles contents w qs k
        ↔ present qs k = true)) ∧
    ∀ {W D Cf Txn It Ptr : Type} (E : TidesdbEngine W D Cf Txn It Ptr) (t : Tdb D Cf)
      (contents : W → Contents) (pending : W → Txn → List KvWrite)
      (h : E.IsMap t contents pending) (reads : KvReads (TdbRun W Txn It Ptr))
      (r : TdbRun W Txn It Ptr), contents r.world = OrderedMap.empty →
      (DelTells (tidesdbBackend E t reads) (h.reliable reads).settles (fun r => contents r.world) r
        qs k ↔ present qs k = true)
  := by
  and_intros
  · intro R rand hrand rng
    have hr := skiplist_reliable hrand
    have hempty : (HeldSkiplist.new rng).contents = OrderedMap.empty := rfl
    have hcontents := hr.contents_storeRun hr.settles (.new rng) qs
    have hcode : ∀ s : HeldSkiplist R, ((skiplistBackend hrand).del s k).1
        = if (s.contents.lookup k).isSome then 1 else 0 := fun s => s.del_code k
    rw [delTells_iff_code hr hempty, hcode, hcontents, hempty, ← present]
    cases present qs k with
    | true => rfl
    | false => rfl
  · intro W D E db contents h reads w hw
    apply delTells_iff_present (h.reliable reads) hw (fun w => h.del_code w k)
  · intro W D Cf Txn It Ptr E t contents pending h reads r hr
    apply delTells_iff_present (h.reliable reads) hr (fun r => (h.writeOp 1 0 [.del k] r).1)

/-! ## Maps -/

/-- A RocksDB that is a map. -/
def mapRocksdb : RocksdbEngine Contents Unit where
  put m _ k v := (none, m.insert k v)
  delete m _ k := (none, m.erase k)
  write m _ wb := (none, applyAll m wb)

theorem mapRocksdb_isMap :
  mapRocksdb.IsMap () id
  := by
  constructor
  case put => exact fun _ _ _ => ⟨rfl, rfl⟩
  case delete => exact fun _ _ => ⟨rfl, rfl⟩
  case write => exact fun _ _ => ⟨rfl, rfl⟩

/-- A TidesDB that is a map. -/
def mapTidesdb : TidesdbEngine (Contents × List KvWrite) Unit Unit Unit Unit Unit where
  errLocked := -12
  errConflict := -7
  errNotFound := -3
  txnBegin w _ := (tdbSuccess, (), w.1, [])
  txnPut w _ _ k v _ := (tdbSuccess, w.1, w.2 ++ [.put k v])
  txnDelete w _ _ k := (tdbSuccess, w.1, w.2 ++ [.del k])
  txnGet w _ _ k := (if (w.1.lookup k).isSome then tdbSuccess else -3,
    (w.1.lookup k).map (fun v => ((), v)), w)
  txnCommit w _ := (tdbSuccess, applyAll w.1 w.2, [])
  txnFree w _ := w
  iterNew w _ _ := (tdbSuccess, (), w)
  iterSeek w _ _ := w
  iterValid w _ := (false, w)
  iterKeyValue w _ := (-3, ((), []), ((), []), w)
  iterNext w _ := (-3, w)
  iterFree w _ := w
  free w _ := w

theorem mapTidesdb_isMap :
  mapTidesdb.IsMap ⟨(), ()⟩ Prod.fst (fun w _ => w.2)
  := by
  constructor
  case begin => exact fun _ => ⟨rfl, rfl, rfl⟩
  case write =>
    intro w txn x
    cases x with
    | put k v => exact ⟨rfl, rfl, rfl⟩
    | del k => exact ⟨rfl, rfl, rfl⟩
  case commit => exact fun _ _ => ⟨rfl, rfl⟩
  case free => exact fun _ _ => rfl

/-- An engine that is not read. -/
def noReads (S : Type) : KvReads S where
  get s _ := (0, [], s)
  range _ _ _ _ _ st := (0, st)
  range_calls _ _ _ _ _ _ := ⟨[], rfl⟩

/-- After two puts and a delete, a delete of the key that is left answers on each engine that it was
present. -/
theorem delTells_iff_example :
  DelTells (skiplistBackend randLevel_height) (skiplist_reliable randLevel_height).settles
      HeldSkiplist.contents (.new 1) [.put [1] [5], .put [2] [6], .del [2]] [1] ∧
    DelTells (rocksdbBackend mapRocksdb () (noReads _)) (mapRocksdb_isMap.reliable _).settles id
      OrderedMap.empty [.put [1] [5], .put [2] [6], .del [2]] [1] ∧
    DelTells (tidesdbBackend mapTidesdb ⟨(), ()⟩ (noReads _))
      (mapTidesdb_isMap.reliable _).settles (fun r => r.world.1) ⟨(OrderedMap.empty, []), []⟩
      [.put [1] [5], .put [2] [6], .del [2]] [1]
  := by
  have hpresent : present [.put [1] [5], .put [2] [6], .del [2]] [1] = true := rfl
  obtain ⟨hskiplist, hrocksdb, htidesdb⟩ :=
    delTells_iff [.put [1] [5], .put [2] [6], .del [2]] [1]
  and_intros
  · apply hskiplist
  · exact (hrocksdb mapRocksdb () id mapRocksdb_isMap _ _ rfl).mpr hpresent
  · exact (htidesdb mapTidesdb ⟨(), ()⟩ Prod.fst _ mapTidesdb_isMap _ _ rfl).mpr hpresent

/-- On an empty store, a delete answers that the key was present on RocksDB and TidesDB, and
that it was not on the skiplist. -/
theorem del_absent :
  present [] [1] = false ∧
    ¬ DelTells (rocksdbBackend mapRocksdb () (noReads _)) (mapRocksdb_isMap.reliable _).settles id
      OrderedMap.empty [] [1] ∧
    ¬ DelTells (tidesdbBackend mapTidesdb ⟨(), ()⟩ (noReads _))
      (mapTidesdb_isMap.reliable _).settles (fun r => r.world.1) ⟨(OrderedMap.empty, []), []⟩ []
      [1] ∧
    DelTells (skiplistBackend randLevel_height) (skiplist_reliable randLevel_height).settles
      HeldSkiplist.contents (.new 1) [] [1]
  := by
  have habsent : present [] [1] = false := rfl
  have hcode : ((skiplistBackend randLevel_height).del (.new 1) [1]).1 = 0 :=
    (HeldSkiplist.new (1 : UInt64)).del_code [1]
  and_intros
  · apply habsent
  · intro htells
    have hempty : id (OrderedMap.empty : Contents) = OrderedMap.empty := rfl
    have hpresent := (delTells_iff_present (mapRocksdb_isMap.reliable _) hempty
      (fun w => mapRocksdb_isMap.del_code w [1]) []).mp htells
    rw [habsent] at hpresent
    cases hpresent
  · intro htells
    have hpresent := (delTells_iff_present (mapTidesdb_isMap.reliable _) rfl
      (fun r => (mapTidesdb_isMap.writeOp 1 0 [.del [1]] r).1) []).mp htells
    rw [habsent] at hpresent
    cases hpresent
  · rw [delTells_iff_code (skiplist_reliable randLevel_height) rfl, habsent]
    change decide (((skiplistBackend randLevel_height).del (.new 1) [1]).1 ≠ 0) = false
    rw [hcode]
    rfl

end Keybench
