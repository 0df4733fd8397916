import Keybench.Engine.Maps

/-!
# List verbs against single verbs

On the skiplist, `kv.mget`, `kv.mput` and `kv.mdel` of a list should do what a loop over its
elements does with `kv.get`, `kv.put` and `kv.del`.  They do for lists of fewer than `2 ^ 31`
elements.  The length of a list is converted to an `int`, so that a longer list is cut
(`lists_agree_iff`).
-/

namespace Keybench

/-! ## What is observed -/

/-- What a script and its report see of a worker on the skiplist. -/
structure Observation where
  /-- The contents of the store. -/
  contents : Contents
  /-- The primitive operations. -/
  primOps : ℕ
  /-- The lookups that found their key. -/
  getHits : ℕ
  /-- The lookups that did not find their key. -/
  getMisses : ℕ
  /-- The lookups the engine failed. -/
  getErrors : ℕ

namespace Observation

/-- After some primitive operations. -/
def prims (o : Observation) (n : ℕ) : Observation := { o with primOps := o.primOps + n }

/-- After a lookup. -/
def look (o : Observation) (k : Bytes) : Observation :=
  if (o.contents.lookup k).isSome then { o with getHits := o.getHits + 1 }
  else { o with getMisses := o.getMisses + 1 }

/-- After a write. -/
def write (o : Observation) (w : KvWrite) : Observation :=
  { o with contents := w.apply o.contents }

/-- After some writes. -/
def writeAll (o : Observation) (ws : List KvWrite) : Observation :=
  { o with contents := applyAll o.contents ws }

theorem prims_prims (o : Observation) (m n : ℕ) :
  (o.prims m).prims n = o.prims (m + n)
  := by
  rw [prims, prims, prims, Nat.add_assoc]

theorem look_prims (o : Observation) (n : ℕ) (k : Bytes) :
  (o.prims n).look k = (o.look k).prims n
  := by
  cases h : (o.contents.lookup k).isSome with
  | true => simp [look, prims, h]
  | false => simp [look, prims, h]

theorem write_prims (o : Observation) (n : ℕ) (w : KvWrite) :
  (o.prims n).write w = (o.write w).prims n
  := rfl

/-- Writes change the contents alone. -/
theorem foldl_write {α : Type} (write : α → KvWrite) (xs : List α) (o : Observation) :
  xs.foldl (fun o x => o.write (write x)) o
    = o.writeAll (xs.map write)
  := by
  induction xs generalizing o with
  | nil => rfl
  | cons x xs ih =>
    rw [List.foldl_cons, ih]
    rfl

theorem look_contents (o : Observation) (k : Bytes) :
  (o.look k).contents = o.contents
  := by
  rw [look]
  split_ifs <;> rfl

/-- Counting before is counting at the end. -/
theorem prims_foldl {α : Type} {f : Observation → α → Observation}
    (hf : ∀ o n x, f (o.prims n) x = (f o x).prims n) (xs : List α) (o : Observation) (n : ℕ) :
  xs.foldl f (o.prims n) = (xs.foldl f o).prims n
  := by
  induction xs generalizing o with
  | nil => rfl
  | cons x xs ih => rw [List.foldl_cons, List.foldl_cons, hf, ih]

/-- Counting one by one is counting at the end. -/
theorem foldl_prims {α : Type} {f : Observation → α → Observation}
    (hf : ∀ o n x, f (o.prims n) x = (f o x).prims n) (xs : List α) (o : Observation) :
  xs.foldl (fun o x => (f o x).prims 1) o = (xs.foldl f o).prims xs.length
  := by
  induction xs generalizing o with
  | nil => rfl
  | cons x xs ih =>
    rw [List.foldl_cons, ih, prims_foldl hf, prims_prims, List.length_cons, List.foldl_cons,
      Nat.add_comm]

end Observation

variable {R C : Type}

/-- What is observed of a worker. -/
def observe (w : Worker (C × HeldSkiplist R)) : Observation where
  contents := w.store.2.contents
  primOps := w.stats.primOps
  getHits := w.stats.getHits
  getMisses := w.stats.getMisses
  getErrors := w.stats.getErrors

/-! ## Lists -/

/-- An argument is the list of some keys.  An element may be a number, or come from a metatable:
here a verb has the strings it has read, while `l_mget` and `l_mput` may lose those that are popped
(`handsStrings_iff`). -/
def IsKeys (arg : LuaArg) (ks : List Bytes) : Prop :=
  ∃ geti getfield, arg = .table ks.length geti getfield ∧
    ∀ i (h : i < ks.length), luaLChecklstring (geti (i + 1)) = some ks[i]

/-- An argument is the list of some pairs, read as those of `IsKeys`. -/
def IsPairs (arg : LuaArg) (kvs : List (Bytes × Bytes)) : Prop :=
  ∃ geti getfield, arg = .table kvs.length geti getfield ∧
    ∀ i (h : i < kvs.length), ∃ len geti' field, geti (i + 1) = .table len geti' field ∧
      luaLChecklstring (field (ascii "key")) = some kvs[i].1 ∧
      luaLChecklstring (field (ascii "val")) = some kvs[i].2

/-- A verb reads at most the list. -/
theorem listCount_le (n : ℕ) :
  listCount n ≤ n
  := by
  rw [listCount, toCInt, Int.bmod_def]
  split_ifs <;> omega

/-- A verb reads the whole list exactly when it has fewer than `2 ^ 31` elements. -/
theorem listCount_eq_iff (n : ℕ) :
  listCount n = n ↔ n < 2 ^ 31
  := by
  rw [listCount, toCInt, Int.bmod_def]
  split_ifs <;> omega

/-- The keys of a list that a verb reads. -/
theorem luaStrings_eq {geti : ℕ → LuaArg} {ks : List Bytes}
    (h : ∀ i (h : i < ks.length), luaLChecklstring (geti (i + 1)) = some ks[i]) :
  ∀ n i, i + n ≤ ks.length → luaStrings geti i n = some ((ks.drop i).take n)
  | 0, i, _ => by rw [luaStrings, List.take_zero]
  | n + 1, i, hn => by
    have hi : i < ks.length := by omega
    rw [luaStrings, h i hi, luaStrings_eq h n (i + 1) (by omega), List.drop_eq_getElem_cons hi,
      List.take_succ_cons]
    rfl

/-- The keys that a verb reads. -/
theorem luaStrings_take {geti : ℕ → LuaArg} {ks : List Bytes}
    (h : ∀ i (h : i < ks.length), luaLChecklstring (geti (i + 1)) = some ks[i]) :
  luaStrings geti 0 (listCount ks.length) = some (ks.take (listCount ks.length))
  := by
  apply luaStrings_eq h
  have hle := listCount_le ks.length
  omega

/-- The pairs of a list that a verb reads. -/
theorem luaPairs_eq {geti : ℕ → LuaArg} {kvs : List (Bytes × Bytes)}
    (h : ∀ i (h : i < kvs.length), ∃ len geti' field, geti (i + 1) = .table len geti' field ∧
      luaLChecklstring (field (ascii "key")) = some kvs[i].1 ∧
      luaLChecklstring (field (ascii "val")) = some kvs[i].2) :
  ∀ n i, i + n ≤ kvs.length → luaPairs geti i n = some ((kvs.drop i).take n)
  | 0, i, _ => by rw [luaPairs, List.take_zero]
  | n + 1, i, hn => by
    have hi : i < kvs.length := by omega
    obtain ⟨len, geti', field, htable, hkey, hval⟩ := h i hi
    rw [luaPairs, htable]
    simp only [hkey, hval, luaPairs_eq h n (i + 1) (by omega), List.drop_eq_getElem_cons hi,
      List.take_succ_cons, Option.bind_eq_bind, Option.bind_some]

/-- The pairs that a verb reads. -/
theorem luaPairs_take {geti : ℕ → LuaArg} {kvs : List (Bytes × Bytes)}
    (h : ∀ i (h : i < kvs.length), ∃ len geti' field, geti (i + 1) = .table len geti' field ∧
      luaLChecklstring (field (ascii "key")) = some kvs[i].1 ∧
      luaLChecklstring (field (ascii "val")) = some kvs[i].2) :
  luaPairs geti 0 (listCount kvs.length) = some (kvs.take (listCount kvs.length))
  := by
  apply luaPairs_eq h
  have hle := listCount_le kvs.length
  omega

/-! ## The verbs -/

/-- Call a verb on each of some argument lists, one after the other. -/
def verbLoop {S : Type} (api : KvStore S) (verb : KvVerb) :
    List (List LuaArg) → Worker S → Option (List LuaAnswer × Worker S)
  | [], w => some ([], w)
  | args :: rest, w => do
    let (answer, w) ← kvCall api args w verb
    let (answers, w) ← verbLoop api verb rest w
    some (answer :: answers, w)

theorem verbLoop_cons {S : Type} {api : KvStore S} {verb : KvVerb} {args : List LuaArg}
    {rest : List (List LuaArg)} {w w₁ w₂ : Worker S} {answer : LuaAnswer}
    {answers : List LuaAnswer} (hcall : kvCall api args w verb = some (answer, w₁))
    (hloop : verbLoop api verb rest w₁ = some (answers, w₂)) :
  verbLoop api verb (args :: rest) w = some (answer :: answers, w₂)
  := by
  simp only [verbLoop, hcall, hloop, Option.bind_eq_bind, Option.bind_some]

/-- The elements of a list. -/
def luaElements : LuaArg → List LuaArg
  | .table len geti _ => (List.range len.toNat).map (fun i => geti (i + 1))
  | _ => []

/-- The `key` and `val` fields of a table. -/
def luaPairArgs : LuaArg → List LuaArg
  | .table _ _ getfield => [getfield (ascii "key"), getfield (ascii "val")]
  | _ => []

section Skiplist

variable {rand : R → ℕ × R} (hrand : ∀ r, 0 < (rand r).1 ∧ (rand r).1 ≤ slMaxLevel)
  (clock : C → UInt64 × C)

/-- The store of the skiplist with a clock. -/
def skiplistStore : KvStore (C × HeldSkiplist R) :=
  (skiplistBackend hrand).store (skiplist_reliable hrand).settles clock

/-- `kv.get` on the skiplist. -/
theorem lGet_observe {arg : LuaArg} {k : Bytes} (harg : luaLChecklstring arg = some k)
    (w : Worker (C × HeldSkiplist R)) :
  ∃ w', kvCall (skiplistStore hrand clock) [arg] w .get
      = some (.value ((observe w).contents.lookup k), w') ∧
    observe w' = ((observe w).look k).prims 1
  := by
  have hget : (skiplistBackend hrand).get w.store.2 k
      = ((w.store.2.get k).1, (w.store.2.get k).2, w.store.2) := rfl
  have hcontents : (observe w).contents.lookup k = w.store.2.contents.lookup k := rfl
  rw [hcontents]
  simp only [kvCall, lGet, luaArg, List.getD_cons_zero, Nat.sub_self, harg, skiplistStore,
    KvBackend.store, hget, w.store.2.get_eq k, Option.bind_eq_bind, Option.bind_some]
  cases hlook : w.store.2.contents.lookup k with
  | some v =>
    refine ⟨_, rfl, ?_⟩
    simp [observe, Observation.look, Observation.prims, Worker.record, statsRecord, foundEvent,
      hlook]
  | none =>
    refine ⟨_, rfl, ?_⟩
    simp [observe, Observation.look, Observation.prims, Worker.record, statsRecord, foundEvent,
      hlook]

/-- `kv.put` on the skiplist. -/
theorem lPut_observe {args : List LuaArg} {k v : Bytes}
    (hkey : luaLChecklstring (luaArg args 1) = some k)
    (hval : luaLChecklstring (luaArg args 2) = some v) (w : Worker (C × HeldSkiplist R)) :
  ∃ w', kvCall (skiplistStore hrand clock) args w .put = some (.nothing, w') ∧
    observe w' = ((observe w).write (.put k v)).prims 1
  := by
  have hput := (skiplist_reliable hrand).storePut_eq (skiplist_reliable hrand).settles w.store.2 k v
  simp only [kvCall, lPut, hkey, hval, skiplistStore, KvBackend.store, hput, Option.bind_eq_bind,
    Option.bind_some]
  exact ⟨_, rfl, rfl⟩

/-- `kv.del` on the skiplist. -/
theorem lDel_observe {arg : LuaArg} {k : Bytes} (harg : luaLChecklstring arg = some k)
    (w : Worker (C × HeldSkiplist R)) :
  ∃ answer w', kvCall (skiplistStore hrand clock) [arg] w .del = some (answer, w') ∧
    observe w' = ((observe w).write (.del k)).prims 1
  := by
  have hdel := (skiplist_reliable hrand).storeDel_eq (skiplist_reliable hrand).settles w.store.2 k
  simp only [kvCall, lDel, luaArg, List.getD_cons_zero, Nat.sub_self, harg, skiplistStore,
    KvBackend.store, hdel, Option.bind_eq_bind, Option.bind_some]
  exact ⟨_, _, rfl, rfl⟩

/-- A loop of `kv.get` over some keys. -/
theorem verbLoop_get {args : List LuaArg} {ks : List Bytes}
    (h : List.Forall₂ (fun arg k => luaLChecklstring arg = some k) args ks)
    (w : Worker (C × HeldSkiplist R)) :
  ∃ w', verbLoop (skiplistStore hrand clock) .get (args.map (fun arg => [arg])) w
      = some (ks.map (fun k => .value ((observe w).contents.lookup k)), w') ∧
    observe w' = (ks.foldl Observation.look (observe w)).prims ks.length
  := by
  rw [← Observation.foldl_prims Observation.look_prims]
  induction h generalizing w with
  | nil => exact ⟨w, rfl, rfl⟩
  | @cons arg k args ks harg hargs ih =>
    obtain ⟨w₁, hcall, hobs⟩ := lGet_observe hrand clock harg w
    obtain ⟨w', hloop, hobs'⟩ := ih w₁
    have hcontents : (observe w₁).contents = (observe w).contents := by
      rw [hobs]
      apply Observation.look_contents
    use w'
    constructor
    · rw [List.map_cons, verbLoop_cons hcall hloop, hcontents, List.map_cons]
    · rw [hobs', hobs, List.foldl_cons]

/-- A loop of a write over some elements. -/
theorem verbLoop_write {α : Type} {verb : KvVerb} {calls : List (List LuaArg)} {xs : List α}
    {write : α → KvWrite}
    (h : List.Forall₂ (fun args x => ∀ w : Worker (C × HeldSkiplist R), ∃ answer w',
      kvCall (skiplistStore hrand clock) args w verb = some (answer, w') ∧
        observe w' = ((observe w).write (write x)).prims 1) calls xs)
    (w : Worker (C × HeldSkiplist R)) :
  ∃ answers w', verbLoop (skiplistStore hrand clock) verb calls w = some (answers, w') ∧
    observe w'
      = (xs.foldl (fun o x => o.write (write x)) (observe w)).prims xs.length
  := by
  rw [← Observation.foldl_prims (fun o n x => o.write_prims n (write x))]
  induction h generalizing w with
  | nil => exact ⟨[], w, rfl, rfl⟩
  | @cons args x calls xs hargs hcalls ih =>
    obtain ⟨answer, w₁, hcall, hobs⟩ := hargs w
    obtain ⟨answers, w', hloop, hobs'⟩ := ih w₁
    use answer :: answers, w'
    constructor
    · apply verbLoop_cons hcall hloop
    · rw [hobs', hobs, List.foldl_cons]

/-! ## List verbs -/

/-- Reading the clock leaves the skiplist alone. -/
theorem skiplistStore_nowNs (cs : C × HeldSkiplist R) :
  ((skiplistStore hrand clock).nowNs cs).2.2 = cs.2
  := rfl

theorem skiplistStore_putbatch (cs : C × HeldSkiplist R) (kvs : List (Bytes × Bytes)) :
  ((skiplistStore hrand clock).putbatch cs kvs).2.2
    = (storePutbatch (skiplistBackend hrand) (skiplist_reliable hrand).settles cs.2 kvs).2
  := rfl

theorem skiplistStore_delbatch (cs : C × HeldSkiplist R) (ks : List Bytes) :
  ((skiplistStore hrand clock).delbatch cs ks).2.2
    = (storeDelbatch (skiplistBackend hrand) (skiplist_reliable hrand).settles cs.2 ks).2
  := rfl

/-- The lookups of `kv.mget` find what `kv.get` finds. -/
theorem storeGets_skiplist (cs : C × HeldSkiplist R) (ks : List Bytes) :
  storeGets (skiplistStore hrand clock) cs ks = (ks.map cs.2.get, cs)
  := by
  induction ks with
  | nil => rfl
  | cons k ks ih =>
    have hget : (skiplistStore hrand clock).get cs k = ((cs.2.get k).1, (cs.2.get k).2, cs) := rfl
    rw [storeGets, hget]
    simp only [ih, List.map_cons]

/-- Counting the lookups of `kv.mget`. -/
theorem observe_lookups {s : HeldSkiplist R} (ks : List Bytes) {w : Worker (C × HeldSkiplist R)}
    (hs : w.store.2 = s) :
  observe ((ks.map s.get).foldl (fun w f => w.record (foundEvent f.1)) w)
    = ks.foldl Observation.look (observe w)
  := by
  induction ks generalizing w with
  | nil => rfl
  | cons k ks ih =>
    have hstep : observe (w.record (foundEvent (s.get k).1)) = (observe w).look k := by
      subst hs
      rw [w.store.2.get_eq k]
      cases hlook : w.store.2.contents.lookup k with
      | some v => simp [observe, Observation.look, Worker.record, statsRecord, foundEvent, hlook]
      | none => simp [observe, Observation.look, Worker.record, statsRecord, foundEvent, hlook]
    have hrest := ih (w := w.record (foundEvent (s.get k).1)) hs
    rw [List.map_cons, List.foldl_cons, hrest, hstep, List.foldl_cons]

/-- `kv.mget` on the skiplist. -/
theorem lMget_observe {arg : LuaArg} {ks : List Bytes} (harg : IsKeys arg ks)
    (w : Worker (C × HeldSkiplist R)) :
  ∃ w', kvCall (skiplistStore hrand clock) [arg] w .mget
      = some (.values ((ks.take (listCount ks.length)).map (observe w).contents.lookup), w') ∧
    observe w' = ((ks.take (listCount ks.length)).foldl Observation.look (observe w)).prims
      (listCount ks.length)
  := by
  obtain ⟨geti, getfield, rfl, hgeti⟩ := harg
  have hread := luaStrings_take hgeti
  have hvalues : ((ks.take (listCount ks.length)).map w.store.2.get).map
      (fun f => if f.1 > 0 then some f.2 else none)
      = (ks.take (listCount ks.length)).map (observe w).contents.lookup := by
    rw [List.map_map]
    apply List.map_congr_left
    intro k _
    rw [Function.comp_apply, w.store.2.get_eq k]
    change _ = w.store.2.contents.lookup k
    cases w.store.2.contents.lookup k with
    | some v => rfl
    | none => rfl
  simp only [kvCall, lMget, luaArg, List.getD_cons_zero, Nat.sub_self, hread, storeGets_skiplist,
    skiplistStore_nowNs, hvalues, Option.bind_eq_bind, Option.bind_some]
  refine ⟨_, rfl, ?_⟩
  rw [observe_lookups, ← Observation.prims_foldl Observation.look_prims]
  · rfl
  · rfl

/-- The contents after a batch of puts. -/
theorem contents_storePutbatch (s : HeldSkiplist R) (kvs : List (Bytes × Bytes)) :
  HeldSkiplist.contents (storePutbatch (skiplistBackend hrand) (skiplist_reliable hrand).settles s
      kvs).2
    = applyAll s.contents (kvs.map (fun kv => .put kv.1 kv.2))
  := (skiplist_reliable hrand).contents_storeRequest (skiplist_reliable hrand).settles s
    (.putbatch kvs)

/-- The contents after a batch of deletes. -/
theorem contents_storeDelbatch (s : HeldSkiplist R) (ks : List Bytes) :
  HeldSkiplist.contents (storeDelbatch (skiplistBackend hrand) (skiplist_reliable hrand).settles s
      ks).2
    = applyAll s.contents (ks.map .del)
  := (skiplist_reliable hrand).contents_storeRequest (skiplist_reliable hrand).settles s
    (.delbatch ks)

/-- What is observed after a batch of writes. -/
theorem observe_batch {w : Worker (C × HeldSkiplist R)} {store : C × HeldSkiplist R}
    {ws : List KvWrite} (h : store.2.contents = applyAll w.store.2.contents ws) (op : KvOp)
    (ns : UInt64) (n : ℕ) :
  observe (({ w with store }.record (.latency op ns)).record (.prim n))
    = ((observe w).writeAll ws).prims n
  := by
  simp only [observe, Observation.writeAll, Observation.prims, Worker.record, statsRecord, h]

/-- `kv.mput` on the skiplist. -/
theorem lMput_observe {arg : LuaArg} {kvs : List (Bytes × Bytes)} (harg : IsPairs arg kvs)
    (w : Worker (C × HeldSkiplist R)) :
  ∃ w', kvCall (skiplistStore hrand clock) [arg] w .mput = some (.nothing, w') ∧
    observe w' = ((kvs.take (listCount kvs.length)).foldl (fun o kv => o.write (.put kv.1 kv.2))
      (observe w)).prims (listCount kvs.length)
  := by
  obtain ⟨geti, getfield, rfl, hgeti⟩ := harg
  have hread := luaPairs_take hgeti
  generalize hn : listCount kvs.length = n at hread ⊢
  simp only [kvCall, lMput, luaArg, List.getD_cons_zero, Nat.sub_self, hn, hread,
    Option.bind_eq_bind, Option.bind_some]
  refine ⟨_, rfl, ?_⟩
  rw [Observation.foldl_write]
  apply observe_batch
  rw [skiplistStore_nowNs, skiplistStore_putbatch, skiplistStore_nowNs, contents_storePutbatch]

/-- `kv.mdel` on the skiplist. -/
theorem lMdel_observe {arg : LuaArg} {ks : List Bytes} (harg : IsKeys arg ks)
    (w : Worker (C × HeldSkiplist R)) :
  ∃ w', kvCall (skiplistStore hrand clock) [arg] w .mdel
      = some (.integer (listCount ks.length), w') ∧
    observe w' = ((ks.take (listCount ks.length)).foldl (fun o k => o.write (.del k))
      (observe w)).prims (listCount ks.length)
  := by
  obtain ⟨geti, getfield, rfl, hgeti⟩ := harg
  have hread := luaStrings_take hgeti
  generalize hn : listCount ks.length = n at hread ⊢
  simp only [kvCall, lMdel, luaArg, List.getD_cons_zero, Nat.sub_self, hn, hread,
    Option.bind_eq_bind, Option.bind_some]
  refine ⟨_, rfl, ?_⟩
  rw [Observation.foldl_write]
  apply observe_batch
  rw [skiplistStore_nowNs, skiplistStore_delbatch, skiplistStore_nowNs, contents_storeDelbatch]

/-! ## Agreement -/

/-- A call of a list verb does what a loop of calls of a single verb does, with answers that are
the same. -/
def ListAgrees {S : Type} (api : KvStore S) (seen : Worker S → Observation)
    (same : LuaAnswer → List LuaAnswer → Prop) (verb single : KvVerb) (arg : LuaArg)
    (calls : List (List LuaArg)) (w : Worker S) : Prop :=
  ∃ answer w₁ answers w₂, kvCall api [arg] w verb = some (answer, w₁) ∧
    verbLoop api single calls w = some (answers, w₂) ∧ same answer answers ∧ seen w₁ = seen w₂

/-- `kv.mget` of a list agrees with a loop of `kv.get`, the answers included. -/
def MgetAgrees (w : Worker (C × HeldSkiplist R)) (arg : LuaArg) : Prop :=
  ListAgrees (skiplistStore hrand clock) observe
    (fun answer answers => ∃ vs, answer = .values vs ∧ answers = vs.map .value) .mget .get arg
    ((luaElements arg).map (fun x => [x])) w

/-- `kv.mput` of a list agrees with a loop of `kv.put`. -/
def MputAgrees (w : Worker (C × HeldSkiplist R)) (arg : LuaArg) : Prop :=
  ListAgrees (skiplistStore hrand clock) observe (fun _ _ => True) .mput .put arg
    ((luaElements arg).map luaPairArgs) w

/-- `kv.mdel` of a list agrees with a loop of `kv.del`. -/
def MdelAgrees (w : Worker (C × HeldSkiplist R)) (arg : LuaArg) : Prop :=
  ListAgrees (skiplistStore hrand clock) observe (fun _ _ => True) .mdel .del arg
    ((luaElements arg).map (fun x => [x])) w

/-- The elements of a list of keys are its keys. -/
theorem IsKeys.elements {arg : LuaArg} {ks : List Bytes} (harg : IsKeys arg ks) :
  List.Forall₂ (fun x k => luaLChecklstring x = some k) (luaElements arg) ks
  := by
  obtain ⟨geti, getfield, rfl, hgeti⟩ := harg
  rw [luaElements, List.forall₂_iff_get]
  constructor
  · simp
  · intro i _ hi
    simpa using hgeti i hi

/-- The elements of a list of pairs are its pairs. -/
theorem IsPairs.elements {arg : LuaArg} {kvs : List (Bytes × Bytes)} (harg : IsPairs arg kvs) :
  List.Forall₂ (fun x kv => luaLChecklstring (luaArg (luaPairArgs x) 1) = some kv.1 ∧
    luaLChecklstring (luaArg (luaPairArgs x) 2) = some kv.2) (luaElements arg) kvs
  := by
  obtain ⟨geti, getfield, rfl, hgeti⟩ := harg
  rw [luaElements, List.forall₂_iff_get]
  constructor
  · simp
  · intro i _ hi
    obtain ⟨len, geti', field, htable, hkey, hval⟩ := hgeti i hi
    simpa [htable, luaPairArgs, luaArg] using ⟨hkey, hval⟩

/-- A cut list is observed as the whole list is exactly when it has fewer than `2 ^ 31`
elements. -/
theorem take_prims_iff {α : Type} {f : Observation → α → Observation}
    (hf : ∀ o x, (f o x).primOps = o.primOps) (xs : List α) (o : Observation) :
  ((xs.take (listCount xs.length)).foldl f o).prims (listCount xs.length)
      = (xs.foldl f o).prims xs.length
    ↔ xs.length < 2 ^ 31
  := by
  have hprim : ∀ (xs : List α) (o : Observation), (xs.foldl f o).primOps = o.primOps := by
    intro xs
    induction xs with
    | nil => exact fun _ => rfl
    | cons x xs ih =>
      intro o
      rw [List.foldl_cons, ih, hf]
  rw [← listCount_eq_iff]
  constructor
  · intro h
    have hops := congrArg Observation.primOps h
    simp only [Observation.prims, hprim] at hops
    apply Nat.add_left_cancel hops
  · intro h
    rw [h, List.take_length]

/-- An agreement is about the results of the call and of the loop. -/
theorem listAgrees_iff {S : Type} {api : KvStore S} {seen : Worker S → Observation}
    {same : LuaAnswer → List LuaAnswer → Prop} {verb single : KvVerb} {arg : LuaArg}
    {calls : List (List LuaArg)} {w w₁ w₂ : Worker S} {answer : LuaAnswer}
    {answers : List LuaAnswer} (hcall : kvCall api [arg] w verb = some (answer, w₁))
    (hloop : verbLoop api single calls w = some (answers, w₂)) :
  ListAgrees api seen same verb single arg calls w ↔ same answer answers ∧ seen w₁ = seen w₂
  := by
  constructor
  · rintro ⟨answer', w₁', answers', w₂', hcall', hloop', hsame, hseen⟩
    rw [hcall] at hcall'
    rw [hloop] at hloop'
    cases hcall'
    cases hloop'
    exact ⟨hsame, hseen⟩
  · rintro ⟨hsame, hseen⟩
    exact ⟨answer, w₁, answers, w₂, hcall, hloop, hsame, hseen⟩

/-- `kv.mget` of a list of keys agrees exactly when there are fewer than `2 ^ 31`. -/
theorem mgetAgrees_iff {arg : LuaArg} {ks : List Bytes} (harg : IsKeys arg ks)
    (w : Worker (C × HeldSkiplist R)) :
  MgetAgrees hrand clock w arg ↔ ks.length < 2 ^ 31
  := by
  obtain ⟨w₁, hcall, hobs₁⟩ := lMget_observe hrand clock harg w
  obtain ⟨w₂, hloop, hobs₂⟩ := verbLoop_get hrand clock harg.elements w
  have hprim : ∀ (o : Observation) k, (o.look k).primOps = o.primOps := by
    intro o k
    rw [Observation.look]
    split_ifs <;> rfl
  rw [MgetAgrees, listAgrees_iff hcall hloop, hobs₁, hobs₂, take_prims_iff hprim]
  apply and_iff_right_of_imp
  intro hlen
  use ks.map (observe w).contents.lookup
  rw [(listCount_eq_iff ks.length).mpr hlen, List.take_length, List.map_map]
  exact ⟨rfl, rfl⟩

/-- `kv.mput` of a list of pairs agrees exactly when there are fewer than `2 ^ 31`. -/
theorem mputAgrees_iff {arg : LuaArg} {kvs : List (Bytes × Bytes)} (harg : IsPairs arg kvs)
    (w : Worker (C × HeldSkiplist R)) :
  MputAgrees hrand clock w arg ↔ kvs.length < 2 ^ 31
  := by
  obtain ⟨w₁, hcall, hobs₁⟩ := lMput_observe hrand clock harg w
  have hcalls : List.Forall₂ (fun args kv => ∀ w : Worker (C × HeldSkiplist R), ∃ answer w',
      kvCall (skiplistStore hrand clock) args w .put = some (answer, w') ∧
        observe w' = ((observe w).write (.put kv.1 kv.2)).prims 1)
      ((luaElements arg).map luaPairArgs) kvs := by
    rw [List.forall₂_map_left_iff]
    apply harg.elements.imp
    rintro x kv ⟨hkey, hval⟩ w
    exact ⟨_, lPut_observe hrand clock hkey hval w⟩
  obtain ⟨answers, w₂, hloop, hobs₂⟩ := verbLoop_write hrand clock hcalls w
  rw [MputAgrees, listAgrees_iff hcall hloop, hobs₁, hobs₂, true_and]
  apply take_prims_iff
  intro o kv
  rfl

/-- `kv.mdel` of a list of keys agrees exactly when there are fewer than `2 ^ 31`. -/
theorem mdelAgrees_iff {arg : LuaArg} {ks : List Bytes} (harg : IsKeys arg ks)
    (w : Worker (C × HeldSkiplist R)) :
  MdelAgrees hrand clock w arg ↔ ks.length < 2 ^ 31
  := by
  obtain ⟨w₁, hcall, hobs₁⟩ := lMdel_observe hrand clock harg w
  have hcalls : List.Forall₂ (fun args k => ∀ w : Worker (C × HeldSkiplist R), ∃ answer w',
      kvCall (skiplistStore hrand clock) args w .del = some (answer, w') ∧
        observe w' = ((observe w).write (.del k)).prims 1)
      ((luaElements arg).map (fun x => [x])) ks := by
    rw [List.forall₂_map_left_iff]
    apply harg.elements.imp
    intro x k hkey w
    apply lDel_observe hrand clock hkey w
  obtain ⟨answers, w₂, hloop, hobs₂⟩ := verbLoop_write hrand clock hcalls w
  rw [MdelAgrees, listAgrees_iff hcall hloop, hobs₁, hobs₂, true_and]
  apply take_prims_iff
  intro o k
  rfl

/-- On the skiplist, in every state, each list verb agrees with the loop of its single verb
exactly when the list has fewer than `2 ^ 31` elements. -/
theorem lists_agree_iff (w : Worker (C × HeldSkiplist R)) (arg : LuaArg) :
  (∀ ks, IsKeys arg ks →
      (MgetAgrees hrand clock w arg ↔ ks.length < 2 ^ 31) ∧
      (MdelAgrees hrand clock w arg ↔ ks.length < 2 ^ 31)) ∧
    ∀ kvs, IsPairs arg kvs → (MputAgrees hrand clock w arg ↔ kvs.length < 2 ^ 31)
  := by
  constructor
  · intro ks harg
    exact ⟨mgetAgrees_iff hrand clock harg w, mdelAgrees_iff hrand clock harg w⟩
  · intro kvs harg
    apply mputAgrees_iff hrand clock harg w

end Skiplist

/-! ## Long lists -/

/-- The list of some keys. -/
def luaKeys (ks : List Bytes) : LuaArg :=
  .table ks.length (fun i => .text (ks.getD (i - 1) []) none) (fun _ => .nil)

theorem luaKeys_isKeys (ks : List Bytes) :
  IsKeys (luaKeys ks) ks
  := by
  refine ⟨_, _, rfl, ?_⟩
  intro i hi
  simp [luaLChecklstring, hi]

/-- A worker on an empty skiplist. -/
def emptyWorker : Worker (Unit × HeldSkiplist UInt64) := ⟨((), .new 1), statsReset⟩

/-- On an empty store, `kv.mget` of three keys agrees with three calls of `kv.get`. -/
theorem lists_agree_iff_example :
  MgetAgrees randLevel_height (fun u : Unit => (0, u)) emptyWorker (luaKeys [[1], [2], [1]])
  := ((lists_agree_iff randLevel_height (fun u : Unit => (0, u)) emptyWorker
    (luaKeys [[1], [2], [1]])).1 [[1], [2], [1]] (luaKeys_isKeys _)).1.mpr (by decide)

/-- `kv.mget` and `kv.mdel` of `2 ^ 31` keys do not agree with the loops. -/
theorem lists_disagree :
  ¬ MgetAgrees randLevel_height (fun u : Unit => (0, u)) emptyWorker
      (luaKeys (List.replicate (2 ^ 31) [1])) ∧
    ¬ MdelAgrees randLevel_height (fun u : Unit => (0, u)) emptyWorker
      (luaKeys (List.replicate (2 ^ 31) [1]))
  := by
  have hkeys := luaKeys_isKeys (List.replicate (2 ^ 31) [1])
  rw [mgetAgrees_iff _ _ hkeys, mdelAgrees_iff _ _ hkeys, List.length_replicate]
  exact ⟨lt_irrefl _, lt_irrefl _⟩

end Keybench
