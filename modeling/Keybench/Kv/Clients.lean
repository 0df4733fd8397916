import Keybench.Engine.Reads
import Keybench.Skiplist.Clients

/-!
# Programs as clients of the skiplist

A verb reads the clock, calls the store, reads the clock again, and then records what it did.  The
skiplist takes no batches, so that `kv.mput` and `kv.mdel` call it once for each element, as
`kv.mget` does on every engine.  `LuaProg.client` is a program as a client of the skiplist: it
calls, reads the clock and notes in the order in which the verbs do, so that other threads may come
in between.

A client by itself does what the program does (`runLua_client`).
-/

namespace Keybench

open Access RwLock

/-! ## Verbs -/

/-- What a worker notes. -/
inductive KvNote where
  /-- A line of its statistics. -/
  | stats (e : StatsEvent)
  /-- A call that was not rejected. -/
  | made (m : KvMade)

/-- The event of a note. -/
def KvNote.event : KvNote → Option StatsEvent
  | .stats e => some e
  | .made _ => none

/-- The call of a note. -/
def KvNote.call : KvNote → Option KvMade
  | .stats _ => none
  | .made m => some m

/-- A verb with accepted arguments: what it calls between its two readings of the clock, and what
it records and answers after them. -/
structure VerbCalls where
  /-- The kind of operation whose latency is recorded. -/
  op : KvOp
  /-- The calls. -/
  calls : List SlCall
  /-- The primitive operations. -/
  prims : ℕ
  /-- What the lookups count as. -/
  found : List SlAnswer → List StatsEvent
  /-- What is pushed. -/
  answer : List SlAnswer → LuaAnswer
  /-- The record of the call. -/
  made : KvMade

/-- The return code and the value of an answer. -/
def SlAnswer.code : SlAnswer → ℤ × Bytes
  | .rc r => (r, [])
  | .value r v => (r, v.getD [])
  | .rows n _ => (n, [])

/-- The rows of an answer. -/
def SlAnswer.rowsCalled : SlAnswer → List (Bytes × Bytes)
  | .rows _ called => called
  | _ => []

/-- What is pushed for a lookup. -/
def SlAnswer.pushed (a : SlAnswer) : Option Bytes := if a.code.1 > 0 then some a.code.2 else none

/-- What a verb does on the skiplist, or `none` when it rejects its arguments. -/
def verbCalls (args : List LuaArg) : KvVerb → Option VerbCalls
  | .put => do
    let k ← luaLChecklstring (luaArg args 1)
    let v ← luaLChecklstring (luaArg args 2)
    some ⟨.put, [.put k v], 1, fun _ => [], fun _ => .nothing, .put⟩
  | .get => do
    let k ← luaLChecklstring (luaArg args 1)
    some ⟨.get, [.get k], 1, fun as => as.map fun a => foundEvent a.code.1,
      fun as => .value (as.headD (.rc 0)).pushed, .get⟩
  | .del => do
    let k ← luaLChecklstring (luaArg args 1)
    some ⟨.del, [.del k], 1, fun _ => [], fun as => .boolean ((as.headD (.rc 0)).code.1 ≠ 0), .del⟩
  | .range => do
    let lo ← luaLChecklstring (luaArg args 1)
    let hi ← luaLChecklstring (luaArg args 2)
    let limit ← luaLOptinteger 0 (luaArg args 3)
    some ⟨.range, [.range lo hi (toCInt limit) fun _ _ _ => 0], 1, fun _ => [],
      fun as => .rows (as.headD (.rc 0)).rowsCalled, .range⟩
  | .mget => do
    let .table len geti _ := luaArg args 1 | none
    let n := listCount len
    let ks ← luaStrings geti 0 n
    some ⟨.mget, ks.map .get, n, fun as => as.map fun a => foundEvent a.code.1,
      fun as => .values (as.map SlAnswer.pushed), .mget len⟩
  | .mput => do
    let .table len geti _ := luaArg args 1 | none
    let n := listCount len
    let kvs ← luaPairs geti 0 n
    some ⟨.mput, kvs.map fun kv => .put kv.1 kv.2, n, fun _ => [], fun _ => .nothing, .mput len⟩
  | .mdel => do
    let .table len geti _ := luaArg args 1 | none
    let n := listCount len
    let ks ← luaStrings geti 0 n
    some ⟨.mdel, ks.map .del, n, fun _ => [], fun _ => .integer n, .mdel len⟩

/-- The callback of a scan that asks for no verb. -/
def scanCalls (lo hi : Bytes) (limit : ℤ) (fn : Bytes → Bytes → LuaEnd) : VerbCalls where
  op := .range
  calls := [.range lo hi (toCInt limit) fun _ k v =>
    match fn k v with
    | .raised => 1
    | .returned stop => if stop then 1 else 0]
  prims := 1
  found _ := []
  answer as := scanAnswer (as.headD (.rc 0)).code.1
    ((as.headD (.rc 0)).rowsCalled.any fun row => fn row.1 row.2 = .raised)
  made := .scan

namespace VerbCalls

/-- What is recorded after the calls. -/
def events (v : VerbCalls) (ns : UInt64) (as : List SlAnswer) : List StatsEvent :=
  .latency v.op ns :: .prim v.prims :: v.found as

/-- What is noted after the calls. -/
def notes (v : VerbCalls) (ns : UInt64) (as : List SlAnswer) : List KvNote :=
  (v.events ns as).map .stats ++ [.made v.made]

/-- The events that are noted. -/
theorem notes_event (v : VerbCalls) (ns : UInt64) (as : List SlAnswer) :
  (v.notes ns as).filterMap KvNote.event = v.events ns as
  := by
  rw [notes, List.filterMap_append, List.filterMap_map]
  exact (List.append_nil _).trans List.filterMap_some

/-- The call that is noted. -/
theorem notes_call (v : VerbCalls) (ns : UInt64) (as : List SlAnswer) :
  (v.notes ns as).filterMap KvNote.call = [v.made]
  := by
  have hnone : ((v.events ns as).map KvNote.stats).filterMap KvNote.call = [] := by
    rw [List.filterMap_eq_nil_iff]
    intro m hm
    obtain ⟨e, -, rfl⟩ := List.mem_map.mp hm
    rfl
  rw [notes, List.filterMap_append, hnone]
  rfl

/-- The verb as a client. -/
def client (v : VerbCalls) : Client SlCall SlAnswer UInt64 KvNote LuaAnswer := do
  let t0 ← Client.read
  let as ← Client.askAll v.calls
  let t1 ← Client.read
  Client.tell (v.notes (t1 - t0) as)
  pure (v.answer as)

end VerbCalls

/-! ## Programs -/

/-- How a program ends that asks for no verb. -/
def LuaProg.ending : LuaProg → Option LuaEnd
  | .ret truthy => some (.returned truthy)
  | .raise => some .raised
  | .call _ _ _ => none
  | .scan _ _ _ _ _ _ => none

/-- The callbacks of the program's scans ask for no verb. -/
def LuaProg.Plain : LuaProg → Prop
  | .ret _ => True
  | .raise => True
  | .call _ _ next => ∀ a, (next a).Plain
  | .scan _ _ _ fn _ next => (∀ k v, (fn k v).ending.isSome) ∧ ∀ a, (next a).Plain

/-- A program as a client of the skiplist. -/
def LuaProg.client : (prog : LuaProg) → prog.Plain → Client SlCall SlAnswer UInt64 KvNote LuaEnd
  | .ret truthy, _ => pure (.returned truthy)
  | .raise, _ => pure .raised
  | .call verb args next, h =>
    match verbCalls args verb with
    | none => (next .raised).client (h .raised)
    | some v => do
      let a ← v.client
      (next a).client (h a)
  | .scan lo hi callable fn limit next, h =>
    match scanArgs lo hi callable limit with
    | none => (next .raised).client (h.2 .raised)
    | some (lo, hi, limit) => do
      let a ← (scanCalls lo hi limit fun k v => (fn k v).ending.get (h.1 k v)).client
      (next a).client (h.2 a)

/-- A program that asks for no verb. -/
theorem runLua_of_ending {S : Type} {api : KvStore S} {prog : LuaProg}
    (h : prog.ending.isSome) (r : LuaRun S) :
  runLua api prog r = (prog.ending.get h, r)
  := by
  cases prog with
  | ret truthy => rfl
  | raise => rfl
  | call verb args next => cases h
  | scan lo hi callable fn limit next => cases h

/-! ## Engines that answer as a map -/

/-- A reliable engine that answers deletes and counts the rows of ranges as a map does. -/
structure KvBackend.Exact {S : Type} (be : KvBackend S) (contents : S → Contents) : Prop where
  reliable : be.Reliable contents
  reads : be.toKvReads.IsMap contents
  existed : ∀ s k, (be.del s k).1 = if ((contents s).lookup k).isSome then 1 else 0
  passed : ∀ {σ : Type} s lo hi limit (cb : RowCallback σ Bytes Bytes) (st : σ),
    (be.range s lo hi limit cb st).1
      = (scan cb (leading limit ((contents s).slice lo hi)) st).passed

/-- The skiplist answers as a map. -/
theorem skiplist_exact {R : Type} {rand : R → ℕ × R}
    (hrand : ∀ r, 0 < (rand r).1 ∧ (rand r).1 ≤ slMaxLevel) :
  (skiplistBackend hrand).Exact HeldSkiplist.contents
  := by
  constructor
  case reliable => exact skiplist_reliable hrand
  case reads => exact skiplist_reads hrand
  case existed => exact fun s k => s.del_code k
  case passed =>
    intro σ s lo hi limit cb st
    have hrange := skiplistStore_range hrand (fun u : Unit => (0, u)) ((), s) lo hi limit cb st
    exact congrArg Prod.fst hrange

section Exact

variable {S C : Type} {be : KvBackend S} {contents : S → Contents} (hbe : be.Exact contents)
  (h : be.Settles) (clock : C → UInt64 × C)

/-- A verb leads from a worker to another: its calls change the contents, it reads the clock before
and after them, and it records its events. -/
structure VerbCalls.Leads (v : VerbCalls) (contents : S → Contents) (clock : C → UInt64 × C)
    (w w' : Worker (C × S)) : Prop where
  writes : contents w'.store.2 = v.calls.foldl SlCall.apply (contents w.store.2)
  time : w'.store.1 = (clock (clock w.store.1).2).2
  stats : w'.stats = (v.events ((clock (clock w.store.1).2).1 - (clock w.store.1).1)
    (mapAnswers (contents w.store.2) v.calls)).foldl statsRecord w.stats

/-- Recorded events by themselves. -/
theorem foldl_record {T : Type} (events : List StatsEvent) (w : Worker T) :
  events.foldl Worker.record w = ⟨w.store, events.foldl statsRecord w.stats⟩
  := by
  induction events generalizing w with
  | nil => rfl
  | cons e events ih => apply ih

/-- The calls of a batch of writes do its writes. -/
theorem foldl_apply_writes {α : Type} (call : α → SlCall) (write : α → KvWrite)
    (hcall : ∀ x m, (call x).apply m = (write x).apply m) (xs : List α) (m : Contents) :
  (xs.map call).foldl SlCall.apply m = applyAll m (xs.map write)
  := by
  rw [applyAll, List.foldl_map, List.foldl_map]
  simp only [hcall]

/-- What a lookup answers. -/
theorem answer_get (m : Contents) (k : Bytes) :
  foundEvent ((SlCall.get k).answer m).code.1 = lookupEvent (m.lookup k) ∧
    ((SlCall.get k).answer m).pushed = m.lookup k
  := by
  rw [SlAnswer.pushed, SlCall.answer]
  cases m.lookup k with
  | none => exact ⟨rfl, rfl⟩
  | some v => exact ⟨rfl, rfl⟩

/-- What lookups answer, and what they leave. -/
theorem mapAnswers_gets (m : Contents) (ks : List Bytes) :
  mapAnswers m (ks.map .get) = ks.map (fun k => (SlCall.get k).answer m) ∧
    (ks.map SlCall.get).foldl SlCall.apply m = m
  := by
  induction ks with
  | nil => exact ⟨rfl, rfl⟩
  | cons k ks ih => exact ⟨congrArg (_ :: ·) ih.1, ih.2⟩

/-- What a range answers that asks for all its rows. -/
theorem answer_range_all (m : Contents) (lo hi : Bytes) (limit : ℤ) :
  ((SlCall.range lo hi limit fun _ _ _ => 0).answer m).rowsCalled
    = leading limit (m.slice lo hi)
  := scan_collectCb (leading limit (m.slice lo hi)) []

/-- Lookups leave the clock. -/
theorem storeGets_clock (cs : C × S) (ks : List Bytes) :
  (storeGets (be.store h clock) cs ks).2.1 = cs.1
  := by
  induction ks generalizing cs with
  | nil => rfl
  | cons k ks ih => exact ih _

omit h in
/-- A rejected check rejects what depends on it. -/
theorem bind_rejected {α β γ : Type} {x : Option α} {f : α → Option β} {g : α → Option γ}
    (h : x >>= f = none) (hfg : ∀ a, f a = none → g a = none) :
  x >>= g = none
  := by
  cases x with
  | none => rfl
  | some a => exact hfg a h

omit h in
/-- A check whose rejection is all that can go wrong. -/
theorem bind_rejected_of_some {α β γ : Type} {x : Option α} {f : α → β} {g : α → Option γ}
    (h : (x >>= fun a => some (f a)) = none) :
  x >>= g = none
  := bind_rejected h fun a ha => absurd ha (Option.some_ne_none (f a))

/-- A verb that calls nothing rejects its arguments. -/
theorem kvCall_rejected {T : Type} {api : KvStore T} {verb : KvVerb} {args : List LuaArg}
    (hv : verbCalls args verb = none) (w : Worker T) :
  kvCall api args w verb = none
  := by
  cases verb with
  | put => exact bind_rejected hv fun k hk => bind_rejected_of_some hk
  | get => exact bind_rejected_of_some hv
  | del => exact bind_rejected_of_some hv
  | range =>
    exact bind_rejected hv fun lo hlo => bind_rejected hlo fun hi hhi => bind_rejected_of_some hhi
  | mget =>
    rw [verbCalls] at hv
    rw [kvCall, lMget]
    generalize luaArg args 1 = arg at hv ⊢
    cases arg with
    | table len geti getfield => exact bind_rejected_of_some hv
    | _ => rfl
  | mput =>
    rw [verbCalls] at hv
    rw [kvCall, lMput]
    generalize luaArg args 1 = arg at hv ⊢
    cases arg with
    | table len geti getfield => exact bind_rejected_of_some hv
    | _ => rfl
  | mdel =>
    rw [verbCalls] at hv
    rw [kvCall, lMdel]
    generalize luaArg args 1 = arg at hv ⊢
    cases arg with
    | table len geti getfield => exact bind_rejected_of_some hv
    | _ => rfl

include hbe

/-- A verb that accepts its arguments does its calls. -/
theorem kvCall_calls {verb : KvVerb} {args : List LuaArg} {v : VerbCalls}
    (hv : verbCalls args verb = some v) (w : Worker (C × S)) :
  v.made = verb.made args ∧ ∃ w', v.Leads contents clock w w' ∧
    kvCall (be.store h clock) args w verb
      = some (v.answer (mapAnswers (contents w.store.2) v.calls), w')
  := by
  have hmap := hbe.reliable.store_isMap hbe.reads h clock
  cases verb with
  | put =>
    obtain ⟨k, hk, hv⟩ := Option.bind_eq_some_iff.mp hv
    obtain ⟨x, hx, hv⟩ := Option.bind_eq_some_iff.mp hv
    obtain rfl := Option.some.inj hv
    use rfl
    simp only [kvCall, lPut, hk, hx, Option.bind_eq_bind, Option.bind_some]
    refine ⟨_, ?_, rfl⟩
    use hmap.put _ k x, rfl
    rfl
  | get =>
    obtain ⟨k, hk, hv⟩ := Option.bind_eq_some_iff.mp hv
    obtain rfl := Option.some.inj hv
    use rfl
    obtain ⟨hevent, hvalue⟩ := hbe.reads.get_eq w.store.2 k
    obtain ⟨hevent', hvalue'⟩ := answer_get (contents w.store.2) k
    simp only [kvCall, lGet, hk, Option.bind_eq_bind, Option.bind_some]
    refine ⟨_, ?_, congrArg (fun a => some (LuaAnswer.value a, _)) (hvalue.trans hvalue'.symm)⟩
    use hmap.reads.get _ k, rfl
    exact congrArg (statsRecord _) (hevent.trans hevent'.symm)
  | del =>
    obtain ⟨k, hk, hv⟩ := Option.bind_eq_some_iff.mp hv
    obtain rfl := Option.some.inj hv
    use rfl
    have hcode : storeDel be h w.store.2 k = be.del w.store.2 k := hbe.reliable.storeDel_eq h _ k
    have hexisted := hbe.existed w.store.2 k
    simp only [kvCall, lDel, hk, Option.bind_eq_bind, Option.bind_some]
    refine ⟨_, ?_, congrArg (fun b => some (LuaAnswer.boolean b, _)) ?_⟩
    · use hmap.del _ k, rfl
      rfl
    · change decide ((storeDel be h w.store.2 k).1 ≠ 0) = _
      rw [hcode, hexisted]
      rfl
  | range =>
    obtain ⟨lo, hlo, hv⟩ := Option.bind_eq_some_iff.mp hv
    obtain ⟨hi, hhi, hv⟩ := Option.bind_eq_some_iff.mp hv
    obtain ⟨limit, hlimit, hv⟩ := Option.bind_eq_some_iff.mp hv
    obtain rfl := Option.some.inj hv
    use rfl
    have hrows := hbe.reads.rows w.store.2 lo hi (toCInt limit) collectCb []
    rw [scan_collectCb, List.nil_append] at hrows
    have hanswer := answer_range_all (contents w.store.2) lo hi (toCInt limit)
    simp only [kvCall, lRange, hlo, hhi, hlimit, Option.bind_eq_bind, Option.bind_some]
    refine ⟨_, ?_, congrArg (fun rows => some (LuaAnswer.rows rows, _)) (hrows.trans hanswer.symm)⟩
    use rfl, rfl
    rfl
  | mget =>
    rw [verbCalls] at hv
    split at hv
    · rename_i len geti getfield harg
      obtain ⟨ks, hks, hv⟩ := Option.bind_eq_some_iff.mp hv
      obtain rfl := Option.some.inj hv
      use by rw [KvVerb.made, luaLLen, harg]
      obtain ⟨hevents, hvalues, hcontents⟩ :=
        hmap.storeGets ((be.store h clock).nowNs w.store).2 ks
      obtain ⟨hanswers, hafter⟩ := mapAnswers_gets (contents w.store.2) ks
      have hclock := storeGets_clock h clock ((be.store h clock).nowNs w.store).2 ks
      have hns : ((be.store h clock).nowNs
          (storeGets (be.store h clock) ((be.store h clock).nowNs w.store).2 ks).2).1
          = (clock (clock w.store.1).2).1 := congrArg (fun c => (clock c).1) hclock
      have hfound : (mapAnswers (contents w.store.2) (ks.map .get)).map
          (fun a => foundEvent a.code.1)
          = ks.map fun k => lookupEvent ((contents w.store.2).lookup k) := by
        rw [hanswers, List.map_map]
        exact List.map_congr_left fun k _ => (answer_get _ k).1
      have hpushed : (mapAnswers (contents w.store.2) (ks.map .get)).map SlAnswer.pushed
          = ks.map (contents w.store.2).lookup := by
        rw [hanswers, List.map_map]
        exact List.map_congr_left fun k _ => (answer_get _ k).2
      rw [kvCall, lMget, harg]
      simp only [hks, Option.bind_eq_bind, Option.bind_some, hpushed,
        ← List.foldl_map (f := fun f : ℤ × Bytes => foundEvent f.1) (g := Worker.record),
        foldl_record, hevents, hvalues, hns]
      refine ⟨_, ?_, rfl⟩
      constructor
      case writes =>
        rw [hafter]
        exact hcontents
      case time => exact congrArg (fun c => (clock c).2) hclock
      case stats =>
        rw [VerbCalls.events]
        dsimp only
        rw [hfound]
        rfl
    · cases hv
  | mput =>
    rw [verbCalls] at hv
    split at hv
    · rename_i len geti getfield harg
      obtain ⟨kvs, hkvs, hv⟩ := Option.bind_eq_some_iff.mp hv
      obtain rfl := Option.some.inj hv
      use by rw [KvVerb.made, luaLLen, harg]
      rw [kvCall, lMput, harg]
      simp only [hkvs, Option.bind_eq_bind, Option.bind_some]
      refine ⟨_, ?_, rfl⟩
      constructor
      case writes =>
        rw [foldl_apply_writes _ (fun kv => .put kv.1 kv.2) (fun _ _ => rfl)]
        exact hmap.putbatch _ kvs
      case time => rfl
      case stats => rfl
    · cases hv
  | mdel =>
    rw [verbCalls] at hv
    split at hv
    · rename_i len geti getfield harg
      obtain ⟨ks, hks, hv⟩ := Option.bind_eq_some_iff.mp hv
      obtain rfl := Option.some.inj hv
      use by rw [KvVerb.made, luaLLen, harg]
      rw [kvCall, lMdel, harg]
      simp only [hks, Option.bind_eq_bind, Option.bind_some]
      refine ⟨_, ?_, rfl⟩
      constructor
      case writes =>
        rw [foldl_apply_writes _ .del (fun _ _ => rfl)]
        exact hmap.delbatch _ ks
      case time => rfl
      case stats => rfl
    · cases hv

/-- A scan whose callback asks for no verb does its call. -/
theorem lScan_calls {fn : Bytes → Bytes → LuaEnd}
    {fn' : LuaRun (C × S) → Bytes → Bytes → LuaEnd × LuaRun (C × S)}
    (hfn : ∀ r k v, fn' r k v = (fn k v, r)) (lo hi : Bytes) (limit : ℤ) (r : LuaRun (C × S)) :
  ∃ w', (scanCalls lo hi limit fn).Leads contents clock r.worker w' ∧
    lScan (be.store h clock) fn' lo hi limit r
      = ((scanCalls lo hi limit fn).answer
          (mapAnswers (contents r.worker.store.2) (scanCalls lo hi limit fn).calls), ⟨w', r.made⟩)
  := by
  let cb : List (Bytes × Bytes) → Bytes → Bytes → ℤ := fun _ k v =>
    match fn k v with
    | .raised => 1
    | .returned stop => if stop then 1 else 0
  let start : LuaRun (C × S) :=
    { r with worker := { r.worker with store := ((be.store h clock).nowNs r.worker.store).2 } }
  let raised : Bytes × Bytes → Bool := fun row => fn row.1 row.2 = .raised
  have hcb : ∀ (st : LuaRun (C × S) × Bool) (seen : List (Bytes × Bytes)) k v,
      (st.1 = start ∧ st.2 = seen.any raised) →
      (scanCb fn' st k v).1 = (remember cb seen k v).1 ∧
        ((scanCb fn' st k v).2.1 = start ∧
          (scanCb fn' st k v).2.2 = (remember cb seen k v).2.any raised) := by
    rintro ⟨r, err⟩ seen k v ⟨rfl, rfl⟩
    simp only [scanCb, hfn, remember, cb, raised, List.any_append, List.any_cons, List.any_nil]
    cases fn k v with
    | returned stop => simp
    | raised => simp
  let rows := leading (toCInt limit) ((contents r.worker.store.2).slice lo hi)
  obtain ⟨-, hpassed, hstate, herr⟩ := scan_related hcb rows (start, false) [] ⟨rfl, rfl⟩
  have hcount := hbe.passed r.worker.store.2 lo hi (toCInt limit) (scanCb fn') (start, false)
  have hrows := hbe.reads.rows r.worker.store.2 lo hi (toCInt limit) (scanCb fn') (start, false)
  rw [hpassed] at hcount
  have hrange : (be.store h clock).range ((be.store h clock).nowNs r.worker.store).2 lo hi
      (toCInt limit) (scanCb fn') (start, false)
      = (((scan (remember cb) rows []).passed : ℤ),
          (start, (scan (remember cb) rows []).state.any raised)) := by
    apply Prod.ext hcount
    exact hrows.trans (Prod.ext hstate herr)
  rw [lScan_of_range hrange]
  refine ⟨_, ?_, rfl⟩
  use rfl, rfl
  rfl

omit hbe in
/-- A verb as a client by itself. -/
theorem VerbCalls.alone_client (v : VerbCalls) (c : C) (m : Contents) :
  v.client.alone mapServe clock c m
    = some (v.answer (mapAnswers m v.calls),
        v.notes ((clock (clock c).2).1 - (clock c).1) (mapAnswers m v.calls),
        (clock (clock c).2).2, v.calls.foldl SlCall.apply m)
  := by
  have hread : ∀ c, (Client.read : Client SlCall SlAnswer UInt64 KvNote UInt64).alone
      mapServe clock c = fun m => some ((clock c).1, [], (clock c).2, m) := fun _ => rfl
  have hpure : ∀ (a : LuaAnswer) c m, (pure a : Client SlCall SlAnswer UInt64 KvNote _).alone
      mapServe clock c m = some (a, [], c, m) := fun _ _ _ => rfl
  simp only [client, Client.alone_bind, hread, alone_askAll, Client.alone_tell, hpure,
    Option.bind_some, Option.map_some, List.nil_append, List.append_nil]

/-- A run that is a client by itself. -/
def LuaRun.Alone (contents : S → Contents) (clock : C → UInt64 × C)
    (client : Client SlCall SlAnswer UInt64 KvNote LuaEnd) (r : LuaRun (C × S))
    (out : LuaEnd × LuaRun (C × S)) : Prop :=
  ∃ notes, client.alone mapServe clock r.worker.store.1 (contents r.worker.store.2)
      = some (out.1, notes, out.2.worker.store.1, contents out.2.worker.store.2) ∧
    out.2.worker.stats = (notes.filterMap KvNote.event).foldl statsRecord r.worker.stats ∧
    out.2.made = r.made ++ notes.filterMap KvNote.call

omit hbe in
/-- A verb, and what comes after it. -/
theorem VerbCalls.Leads.alone_bind {v : VerbCalls} {r : LuaRun (C × S)} {w' : Worker (C × S)}
    (hleads : v.Leads contents clock r.worker w')
    {next : LuaAnswer → Client SlCall SlAnswer UInt64 KvNote LuaEnd}
    {out : LuaEnd × LuaRun (C × S)}
    (hnext : LuaRun.Alone contents clock
      (next (v.answer (mapAnswers (contents r.worker.store.2) v.calls)))
      ⟨w', r.made ++ [v.made]⟩ out) :
  LuaRun.Alone contents clock (v.client >>= next) r out
  := by
  obtain ⟨notes, halone, hstats, hmade⟩ := hnext
  let ns := (clock (clock r.worker.store.1).2).1 - (clock r.worker.store.1).1
  use v.notes ns (mapAnswers (contents r.worker.store.2) v.calls) ++ notes
  and_intros
  · rw [hleads.writes, hleads.time] at halone
    rw [Client.alone_bind, v.alone_client, Option.bind_some, halone]
    rfl
  · rw [hstats, hleads.stats, List.filterMap_append, v.notes_event, List.foldl_append]
  · rw [hmade, List.filterMap_append, v.notes_call, List.append_assoc]

/-- A client by itself does what the program does: it ends in the same way, makes the same calls,
records the same and leaves the same contents. -/
theorem runLua_client {prog : LuaProg} (hprog : prog.Plain) (r : LuaRun (C × S)) :
  LuaRun.Alone contents clock (prog.client hprog) r (runLua (be.store h clock) prog r)
  := by
  induction prog generalizing r with
  | ret truthy => exact ⟨[], rfl, rfl, (List.append_nil _).symm⟩
  | raise => exact ⟨[], rfl, rfl, (List.append_nil _).symm⟩
  | call verb args next ih =>
    rw [LuaProg.client, runLua]
    split
    · rename_i hv
      rw [kvCall_rejected hv]
      apply ih
    · rename_i v hv
      obtain ⟨hmade, w', hleads, hcall⟩ := kvCall_calls hbe h clock hv r.worker
      rw [hcall, ← hmade]
      apply hleads.alone_bind
      apply ih
  | scan lo hi callable fn limit next ihfn ihnext =>
    rw [LuaProg.client]
    split
    · rename_i hargs
      rw [runLua, hargs]
      apply ihnext
    · rename_i lo' hi' limit' hargs
      rw [runLua, hargs]
      have hfn : ∀ (r : LuaRun (C × S)) k v, runLua (be.store h clock) (fn k v) r
          = ((fn k v).ending.get (hprog.1 k v), r) := fun r k v => runLua_of_ending (hprog.1 k v) r
      obtain ⟨w', hleads, hscan⟩ := lScan_calls hbe h clock hfn lo' hi' limit' r
      simp only [hscan]
      apply hleads.alone_bind
      apply ihnext

end Exact

/-! ## What verbs ensure -/

/-- A verb whose calls each keep `K` and have answers of a kind. -/
theorem VerbCalls.client_ensures {v : VerbCalls} {K : Contents → Prop} {T : List KvNote → Prop}
    {Q : List (SlCall × SlAnswer) → List KvNote → LuaAnswer → Prop} {P : SlCall → SlAnswer → Prop}
    {calls : List (SlCall × SlAnswer)} {notes : List KvNote} (hnow : T notes)
    (hcalls : ∀ call ∈ v.calls, ∀ m, K m → K (call.apply m) ∧ P call (call.answer m))
    (hT : ∀ ns as, List.Forall₂ P v.calls as → ∀ es, es <+: v.notes ns as → T (notes ++ es))
    (hQ : ∀ ns as, List.Forall₂ P v.calls as →
      Q (calls ++ v.calls.zip as) (notes ++ v.notes ns as) (v.answer as)) :
  v.client.Ensures mapServe K T Q calls notes
  := by
  apply Client.Ensures.bind
  apply Client.Ensures.input hnow
  intro t0
  apply Client.Ensures.done hnow
  apply Client.Ensures.bind
  apply Client.Ensures.askAll (P := P) hnow
  · intro call hcall m a m' hm hserve
    obtain ⟨rfl, rfl⟩ := Prod.mk.inj (Option.some.inj hserve)
    exact hcalls call hcall m hm
  · intro as has
    apply Client.Ensures.bind
    apply Client.Ensures.input hnow
    intro t1
    apply Client.Ensures.done hnow
    apply Client.Ensures.bind
    apply Client.Ensures.tell (hT (t1 - t0) as has)
    exact .done (hT (t1 - t0) as has _ List.prefix_rfl) (hQ (t1 - t0) as has)

end Keybench
