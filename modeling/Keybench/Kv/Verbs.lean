import Keybench.Kv.Lua
import Keybench.Kv.Stats

/-!
# The verbs of a workload

A workload is a Lua program that calls the verbs of `kv`.  `LuaProg` is such a program: what
it does next may depend on everything the verbs have answered, and the callback of a scan is
itself a program.  `runLua` runs it on a worker, with any store and any clock, and keeps a
record of the calls that were not rejected for their arguments.
-/

namespace Keybench

/-- The store and the clock, as the verbs use them.  Reading and writing may fail in any way.
A range only calls its callback, on some rows, until a call returns nonzero. -/
structure KvStore (S : Type) where
  /-- `now_ns`. -/
  nowNs : S → UInt64 × S
  /-- `store_put`. -/
  put : S → Bytes → Bytes → ℤ × S
  /-- `store_putbatch`. -/
  putbatch : S → List (Bytes × Bytes) → ℤ × S
  /-- `store_get`: the return code and, when it is positive, the value. -/
  get : S → Bytes → ℤ × Bytes × S
  /-- `store_del`. -/
  del : S → Bytes → ℤ × S
  /-- `store_delbatch`. -/
  delbatch : S → List Bytes → ℤ × S
  /-- `store_range`. -/
  range : {σ : Type} → S → Bytes → Bytes → ℤ → RowCallback σ Bytes Bytes → σ → ℤ × σ
  /-- A range does nothing to the callback's state but calling it. -/
  range_calls : ∀ {σ : Type} (s : S) (lo hi : Bytes) (limit : ℤ) (cb : RowCallback σ Bytes Bytes)
    (st : σ), ∃ rows, (range s lo hi limit cb st).2 = (scan cb rows st).state

/-- A worker's `kvlua_ctx`. -/
structure Worker (S : Type) where
  /-- The store. -/
  store : S
  /-- The statistics. -/
  stats : OpStats

/-- Record an event. -/
def Worker.record {S : Type} (w : Worker S) (e : StatsEvent) : Worker S :=
  { w with stats := statsRecord w.stats e }

section Verbs

variable {S : Type} (api : KvStore S)

/-- `l_put`. -/
def lPut (args : List LuaArg) (w : Worker S) : Option (LuaAnswer × Worker S) := do
  let k ← luaLChecklstring (luaArg args 1)
  let v ← luaLChecklstring (luaArg args 2)
  let (t0, store) := api.nowNs w.store
  let (_, store) := api.put store k v
  let (t1, store) := api.nowNs store
  let w := { w with store }
  let w := w.record (.latency .put (t1 - t0))
  let w := w.record (.prim 1)
  some (.nothing, w)

/-- What a lookup counts as. -/
def foundEvent (found : ℤ) : StatsEvent :=
  if found > 0 then .hit else if found < 0 then .error else .miss

/-- `l_get`. -/
def lGet (args : List LuaArg) (w : Worker S) : Option (LuaAnswer × Worker S) := do
  let k ← luaLChecklstring (luaArg args 1)
  let (t0, store) := api.nowNs w.store
  let (found, v, store) := api.get store k
  let (t1, store) := api.nowNs store
  let w := { w with store }
  let w := w.record (.latency .get (t1 - t0))
  let w := w.record (.prim 1)
  let w := w.record (foundEvent found)
  some (.value (if found > 0 then some v else none), w)

/-- `l_del`. -/
def lDel (args : List LuaArg) (w : Worker S) : Option (LuaAnswer × Worker S) := do
  let k ← luaLChecklstring (luaArg args 1)
  let (t0, store) := api.nowNs w.store
  let (existed, store) := api.del store k
  let (t1, store) := api.nowNs store
  let w := { w with store }
  let w := w.record (.latency .del (t1 - t0))
  let w := w.record (.prim 1)
  some (.boolean (existed ≠ 0), w)

/-- `collect_cb`. -/
def collectCb : RowCallback (List (Bytes × Bytes)) Bytes Bytes :=
  fun rows k v => (0, rows ++ [(k, v)])

/-- `l_range`. -/
def lRange (args : List LuaArg) (w : Worker S) : Option (LuaAnswer × Worker S) := do
  let lo ← luaLChecklstring (luaArg args 1)
  let hi ← luaLChecklstring (luaArg args 2)
  let limit ← luaLOptinteger 0 (luaArg args 3)
  let (t0, store) := api.nowNs w.store
  let (_, rows) := api.range store lo hi (toCInt limit) collectCb []
  let (t1, store) := api.nowNs store
  let w := { w with store }
  let w := w.record (.latency .range (t1 - t0))
  let w := w.record (.prim 1)
  some (.rows rows, w)

/-- The lookups of `l_mget`. -/
def storeGets (s : S) : List Bytes → List (ℤ × Bytes) × S
  | [] => ([], s)
  | k :: ks =>
    let (found, v, s) := api.get s k
    let (founds, s) := storeGets s ks
    ((found, v) :: founds, s)

/-- `l_mget`. -/
def lMget (args : List LuaArg) (w : Worker S) : Option (LuaAnswer × Worker S) := do
  let .table len geti _ := luaArg args 1 | none
  let n := listCount len
  let ks ← luaStrings geti 0 n
  let (t0, store) := api.nowNs w.store
  let (founds, store) := storeGets api store ks
  let (t1, store) := api.nowNs store
  let w := { w with store }
  let w := w.record (.latency .mget (t1 - t0))
  let w := w.record (.prim n)
  let w := founds.foldl (fun w f => w.record (foundEvent f.1)) w
  some (.values (founds.map (fun f => if f.1 > 0 then some f.2 else none)), w)

/-- `l_mput`. -/
def lMput (args : List LuaArg) (w : Worker S) : Option (LuaAnswer × Worker S) := do
  let .table len geti _ := luaArg args 1 | none
  let n := listCount len
  let kvs ← luaPairs geti 0 n
  let (t0, store) := api.nowNs w.store
  let (_, store) := api.putbatch store kvs
  let (t1, store) := api.nowNs store
  let w := { w with store }
  let w := w.record (.latency .mput (t1 - t0))
  let w := w.record (.prim n)
  some (.nothing, w)

/-- `l_mdel`. -/
def lMdel (args : List LuaArg) (w : Worker S) : Option (LuaAnswer × Worker S) := do
  let .table len geti _ := luaArg args 1 | none
  let n := listCount len
  let ks ← luaStrings geti 0 n
  let (t0, store) := api.nowNs w.store
  let (_, store) := api.delbatch store ks
  let (t1, store) := api.nowNs store
  let w := { w with store }
  let w := w.record (.latency .mdel (t1 - t0))
  let w := w.record (.prim n)
  some (.integer n, w)

end Verbs

/-! ## Programs -/

/-- The verbs other than `kv.scan`. -/
inductive KvVerb where
  | put
  | get
  | del
  | range
  | mget
  | mput
  | mdel
deriving DecidableEq

/-- A workload. -/
inductive LuaProg where
  /-- The program returns. -/
  | ret (truthy : Bool)
  /-- The program raises an error. -/
  | raise
  /-- The program calls a verb and goes on with its answer. -/
  | call (verb : KvVerb) (args : List LuaArg) (next : LuaAnswer → LuaProg)
  /-- The program calls `kv.scan` and goes on with its answer.  `callable` says whether the
  third argument is a function, and `fn` is that function. -/
  | scan (lo hi : LuaArg) (callable : Bool) (fn : Bytes → Bytes → LuaProg) (limit : LuaArg)
    (next : LuaAnswer → LuaProg)

/-- A call that was not rejected for its arguments.  Lists are recorded with the length that
Lua gives them. -/
inductive KvMade where
  | put
  | get
  | del
  | range
  | scan
  | mget (len : ℤ)
  | mput (len : ℤ)
  | mdel (len : ℤ)
deriving DecidableEq

/-- The length of the first argument of a call on a list. -/
def luaLLen (args : List LuaArg) : ℤ :=
  match luaArg args 1 with
  | .table len _ _ => len
  | _ => 0

/-- The record of a call. -/
def KvVerb.made (args : List LuaArg) : KvVerb → KvMade
  | .put => .put
  | .get => .get
  | .del => .del
  | .range => .range
  | .mget => .mget (luaLLen args)
  | .mput => .mput (luaLLen args)
  | .mdel => .mdel (luaLLen args)

/-- A worker with the record of the calls made on it. -/
structure LuaRun (S : Type) where
  /-- The worker. -/
  worker : Worker S
  /-- The calls that were not rejected, in the order in which they ended. -/
  made : List KvMade

section Runs

variable {S : Type} (api : KvStore S)

/-- Call a verb. -/
def kvCall (args : List LuaArg) (w : Worker S) : KvVerb → Option (LuaAnswer × Worker S)
  | .put => lPut api args w
  | .get => lGet api args w
  | .del => lDel api args w
  | .range => lRange api args w
  | .mget => lMget api args w
  | .mput => lMput api args w
  | .mdel => lMdel api args w

/-- The arguments of `l_scan`. -/
def scanArgs (lo hi : LuaArg) (callable : Bool) (limit : LuaArg) : Option (Bytes × Bytes × ℤ) := do
  let lo ← luaLChecklstring lo
  let hi ← luaLChecklstring hi
  if ¬ callable then none
  else
    let limit ← luaLOptinteger 0 limit
    some (lo, hi, limit)

/-- `l_scan` after its arguments, with a callback that itself runs on the worker. -/
def lScan (fn : LuaRun S → Bytes → Bytes → LuaEnd × LuaRun S) (lo hi : Bytes) (limit : ℤ)
    (r : LuaRun S) : LuaAnswer × LuaRun S :=
  let (t0, store) := api.nowNs r.worker.store
  let r := { r with worker := { r.worker with store } }
  let (n, (r, err)) := api.range store lo hi (toCInt limit) (scanCb fn) (r, false)
  let (t1, store) := api.nowNs r.worker.store
  let w := { r.worker with store }
  let w := w.record (.latency .range (t1 - t0))
  let w := w.record (.prim 1)
  (scanAnswer n err, { r with worker := w })

/-- Run a program. -/
def runLua : LuaProg → LuaRun S → LuaEnd × LuaRun S
  | .ret truthy, r => (.returned truthy, r)
  | .raise, r => (.raised, r)
  | .call verb args next, r =>
    match kvCall api args r.worker verb with
    | none => runLua (next .raised) r
    | some (answer, worker) => runLua (next answer) ⟨worker, r.made ++ [verb.made args]⟩
  | .scan lo hi callable fn limit next, r =>
    match scanArgs lo hi callable limit with
    | none => runLua (next .raised) r
    | some (lo, hi, limit) =>
      let (answer, r) := lScan api (fun r k v => runLua (fn k v) r) lo hi limit r
      runLua (next answer) { r with made := r.made ++ [.scan] }

/-- A call that is not rejected. -/
theorem runLua_call {verb : KvVerb} {args : List LuaArg} {next : LuaAnswer → LuaProg} {r : LuaRun S}
    {answer : LuaAnswer} {worker : Worker S}
    (h : kvCall api args r.worker verb = some (answer, worker)) :
  runLua api (.call verb args next) r = runLua api (next answer) ⟨worker, r.made ++ [verb.made args]⟩
  := by
  rw [runLua, h]

end Runs

end Keybench
