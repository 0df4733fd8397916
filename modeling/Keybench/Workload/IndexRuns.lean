import Keybench.Workload.Filled
import Keybench.Workload.Sound

/-!
# Batches and scans of an index

The workers of batch and of scan keep a store that holds the value of each index below `items` as it
is.  In every interleaving every lookup of batch finds its key and every call hands over a whole
batch, whatever the reused buffers held before (`measure_batch`), and every scan visits a whole
window, in numeric order (`measure_scan`).
-/

namespace Keybench

open Interleave

/-! ## Single calls -/

section Calls

variable {S : Type} {api : KvStore S} {c : S → Contents}

/-- Recorded hits. -/
theorem foldl_record_hits (n : ℕ) (w : Worker S) :
  ((List.replicate n StatsEvent.hit).foldl Worker.record w).stats
    = { w.stats with getHits := w.stats.getHits + n }
  := by
  induction n generalizing w with
  | zero => rfl
  | succ n ih =>
    rw [List.replicate_succ, List.foldl_cons, ih]
    simp only [Worker.record, statsRecord, OpStats.mk.injEq, true_and, and_true]
    omega

/-- `kv.mget` of keys that are all there. -/
theorem kvCall_mget_found (hapi : api.IsMap c) (ks : List Bytes) (hlen : ks.length < 2 ^ 31)
    {w : Worker S} (hfound : ∀ k ∈ ks, ∃ v, (c w.store).lookup k = some v) :
  ∃ vs w', kvCall api [luaKeys ks] w .mget = some (.values vs, w') ∧ c w'.store = c w.store ∧
    w'.stats.primOps = w.stats.primOps + ks.length ∧
    w'.stats.getHits = w.stats.getHits + ks.length ∧
    w'.stats.getMisses = w.stats.getMisses ∧ w'.stats.getErrors = w.stats.getErrors
  := by
  obtain ⟨geti, getfield, harg, hgeti⟩ := luaKeys_isKeys ks
  have hcount := (listCount_eq_iff ks.length).mpr hlen
  have hread := luaStrings_take hgeti
  rw [hcount, List.take_length] at hread
  obtain ⟨hevents, -, hcontents⟩ := hapi.storeGets (api.nowNs w.store).2 ks
  have hhits : (storeGets api (api.nowNs w.store).2 ks).1.map (fun f => foundEvent f.1)
      = List.replicate ks.length .hit := by
    rw [hevents, hapi.nowNs, List.eq_replicate_iff]
    constructor
    · rw [List.length_map]
    · intro e he
      obtain ⟨k, hk, rfl⟩ := List.mem_map.mp he
      obtain ⟨v, hv⟩ := hfound k hk
      rw [hv]
      rfl
  rw [harg]
  generalize (ks.length : ℤ) = len at hcount
  have hlist : luaArg [.table len geti getfield] 1 = .table len geti getfield := rfl
  rw [kvCall, lMget, hlist]
  simp only [hcount, hread, Option.bind_eq_bind, Option.bind_some]
  simp only [← List.foldl_map (f := fun f : ℤ × Bytes => foundEvent f.1) (g := Worker.record),
    hhits]
  refine ⟨_, _, rfl, ?_, ?_⟩
  · rw [store_foldl_record]
    change c (api.nowNs _).2 = _
    rw [hapi.nowNs, hcontents, hapi.nowNs]
  · rw [foldl_record_hits]
    exact ⟨rfl, rfl, rfl, rfl⟩

/-- `kv.mput` of some pairs counts no lookup. -/
theorem kvCall_mput_whole (hapi : api.IsMap c) (kvs : List (Bytes × Bytes))
    (hlen : kvs.length < 2 ^ 31) (w : Worker S) :
  ∃ w', kvCall api [luaPairList kvs] w .mput = some (.nothing, w') ∧
    c w'.store = applyAll (c w.store) (KvRequest.writes (.putbatch kvs)) ∧
    w'.stats.primOps = w.stats.primOps + kvs.length ∧
    w'.stats.getHits = w.stats.getHits ∧
    w'.stats.getMisses = w.stats.getMisses ∧ w'.stats.getErrors = w.stats.getErrors
  := by
  obtain ⟨geti, getfield, harg, hgeti⟩ := luaPairList_isPairs kvs
  have hcount := (listCount_eq_iff kvs.length).mpr hlen
  have hread := luaPairs_take hgeti
  rw [hcount, List.take_length] at hread
  rw [harg]
  generalize (kvs.length : ℤ) = len at hcount
  have hlist : luaArg [.table len geti getfield] 1 = .table len geti getfield := rfl
  rw [kvCall, lMput, hlist]
  simp only [hcount, hread, Option.bind_eq_bind, Option.bind_some]
  refine ⟨_, rfl, ?_, rfl, rfl, rfl, rfl⟩
  change c (api.nowNs _).2 = _
  rw [hapi.nowNs, hapi.putbatch, hapi.nowNs]

/-- Putting the pairs of a full index leaves it as it is. -/
theorem HoldsIndex.putbatch {items : ℤ} {value : Bytes} {m : Contents}
    (h : HoldsIndex items value m) {kvs : List (Bytes × Bytes)}
    (hkvs : ∀ kv ∈ kvs, IndexPair items value kv.1 kv.2) :
  applyAll m (KvRequest.writes (.putbatch kvs)) = m
  := by
  induction kvs generalizing m with
  | nil => rfl
  | cons kv kvs ih =>
    have hinsert : m.insert kv.1 kv.2 = m := by
      apply OrderedMap.ext_lookup
      intro k
      rw [OrderedMap.lookup_insert]
      split_ifs with hkey
      · rw [hkey]
        exact ((h kv.1 kv.2).mpr (hkvs kv List.mem_cons_self)).symm
      · rfl
    have hrest := ih h fun kv' hkv' => hkvs kv' (List.mem_cons_of_mem _ hkv')
    change applyAll (m.insert kv.1 kv.2) (KvRequest.writes (.putbatch kvs)) = m
    rw [hinsert, hrest]

end Calls

/-- A call that is not rejected, and what comes after it. -/
theorem step_callOnce_andThen {S : Type} {api : KvStore S} {verb : KvVerb} {args : List LuaArg}
    {rest : LuaProg} {r : LuaRun S} {a : LuaAnswer} {w' : Worker S}
    (hcall : kvCall api args r.worker verb = some (a, w')) (ha : a ≠ .raised) :
  ((callOnce verb args).andThen rest).step api r = some (rest, ⟨w', r.made ++ [verb.made args]⟩)
  := by
  refine (LuaProg.step_call hcall).trans ?_
  simp only [if_neg ha]
  rfl

/-- A scan, and what comes after it. -/
theorem step_scanOnce_andThen {S : Type} {api : KvStore S} {lo hi : Bytes} {rest : LuaProg}
    {r r' : LuaRun S} {n : ℤ}
    (h : lScan api (fun r _ _ => runLua api (.ret false) r) lo hi 0 r = (.integer n, r')) :
  ((scanOnce lo hi).andThen rest).step api r
    = some (rest, { r' with made := r'.made ++ [.scan] })
  := by
  have hargs : scanArgs (luaString lo) (luaString hi) true .nil = some (lo, hi, 0) := rfl
  exact LuaProg.step_scan hargs h

/-! ## Batches -/

/-- What a worker of batch has counted: every call hands over `b` keys, and every lookup finds its
key. -/
structure BatchCounts (b : ℕ) (y : LuaThread) : Prop where
  made : ∀ m ∈ y.made, m = .mget b ∨ m = .mput b
  prims : y.stats.primOps = b * y.made.length
  hits : y.stats.getHits = b * y.made.count (.mget b)
  misses : y.stats.getMisses = 0
  errors : y.stats.getErrors = 0

/-- A call of batch keeps the counts. -/
theorem BatchCounts.add {b : ℕ} {y y' : LuaThread} (h : BatchCounts b y) {m : KvMade}
    (hm : m = .mget b ∨ m = .mput b) (hmade : y'.made = y.made ++ [m])
    (hprims : y'.stats.primOps = y.stats.primOps + b)
    (hhits : y'.stats.getHits = y.stats.getHits + if m = .mget b then b else 0)
    (hmisses : y'.stats.getMisses = y.stats.getMisses)
    (herrors : y'.stats.getErrors = y.stats.getErrors) :
  BatchCounts b y'
  := by
  constructor
  case made =>
    intro m' hm'
    rw [hmade] at hm'
    rcases List.mem_append.mp hm' with hm' | hm'
    · apply h.made m' hm'
    · rw [List.mem_singleton.mp hm']
      apply hm
  case prims =>
    rw [hprims, h.prims, hmade, List.length_append, List.length_singleton]
    ring
  case hits =>
    rw [hhits, h.hits, hmade, List.count_append, List.count_singleton]
    rcases hm with rfl | rfl
    · simp
      ring
    · simp
  case misses => exact hmisses.trans h.misses
  case errors => exact herrors.trans h.errors

section Workers

variable {G : Type} (rng : LuaRandom G) (hot : ℤ → G → ℤ × G) (items : ℤ)

/-- A worker with `n` calls of `run` left of `calls`. -/
def LuaThread.Calls (W : Workload) (calls : ℕ) (y : LuaThread) : Prop :=
  ∃ n st, W.Bounded st ∧ y.prog = workerProg (fun st => W.run rng hot items st) n st ∧
    n + y.made.length = calls

variable {rng hot items}

/-- A worker with a call left does it and has one call fewer. -/
theorem LuaThread.Calls.cases {W : Workload} (hrun : ∀ st : WorkloadState G,
      ∃ prog st', W.run rng hot items st = some (prog, st')) {calls : ℕ} {y : LuaThread}
    (h : y.Calls rng hot items W calls) :
  (y.prog = .ret false ∧ y.made.length = calls) ∨
    ∃ prog rest, W.Call items prog ∧ y.prog = prog.andThen rest ∧
      ∀ stats m, LuaThread.Calls rng hot items W calls ⟨rest, stats, y.made ++ [m]⟩
  := by
  obtain ⟨n, st, hst, hprog, hn⟩ := h
  cases n with
  | zero =>
    left
    exact ⟨hprog, by omega⟩
  | succ n =>
    right
    obtain ⟨prog, st', hnext⟩ := hrun st
    obtain ⟨hcall, hst'⟩ := W.run_call hst hnext
    refine ⟨prog, workerProg (fun st => W.run rng hot items st) n st', hcall, ?_, ?_⟩
    · rw [hprog, workerProg, hnext]
    · intro stats m
      refine ⟨n, st', hst', rfl, ?_⟩
      rw [List.length_append, List.length_singleton]
      omega

/-- A worker that begins. -/
theorem LuaThread.Calls.start {W : Workload} (calls : ℕ) (g : G) :
  LuaThread.Calls rng hot items W calls (.start (W.worker rng hot items calls g))
  := by
  refine ⟨calls, ⟨g, [], []⟩, ?_, rfl, rfl⟩
  cases W with
  | batch b => exact ⟨Nat.zero_le _, Nat.zero_le _⟩
  | _ => trivial

/-- A call of `run` of batch does something. -/
theorem exists_run_batch (hitems : 1 ≤ items) {b : ℕ} (hb : 1 ≤ b) (st : WorkloadState G) :
  ∃ prog st', Workload.run rng hot items st (.batch b) = some (prog, st')
  := exists_batchRun rng hitems (by omega) st

/-- A call of `run` of scan does something. -/
theorem exists_run_scan (hitems : 1 ≤ items) (st : WorkloadState G) :
  ∃ prog st', Workload.run rng hot items st .scan = some (prog, st')
  := by
  obtain ⟨prog, g', hrun⟩ := exists_scanRun rng hitems st.gen
  use prog, { st with gen := g' }
  simp only [Workload.run, hrun, Option.bind_eq_bind, Option.bind_some]

variable {S : Type} {api : KvStore S} {c : S → Contents}

/-- A call of `run` of batch on a full index. -/
theorem batch_step (hapi : api.IsMap c) {b : ℕ} (hb : 1 ≤ b) (hfits : b < 2 ^ 31)
    (hitems : 1 ≤ items) {calls : ℕ} {y : LuaThread} {s : S} {prog' : LuaProg} {r' : LuaRun S}
    (hs : HoldsIndex items indexValue (c s)) (hy : y.Calls rng hot items (.batch b) calls)
    (hcounts : BatchCounts b y)
    (hstep : y.prog.step api ⟨⟨s, y.stats⟩, y.made⟩ = some (prog', r')) :
  c r'.worker.store = c s ∧
    LuaThread.Calls rng hot items (.batch b) calls ⟨prog', r'.worker.stats, r'.made⟩ ∧
    BatchCounts b ⟨prog', r'.worker.stats, r'.made⟩
  := by
  rcases hy.cases (exists_run_batch hitems hb) with ⟨hret, -⟩ | ⟨prog, rest, hcall, hprog, hrest⟩
  · rw [hret] at hstep
    cases hstep
  · rw [hprog] at hstep
    cases hcall with
    | mget js hjs hall =>
      rw [Int.toNat_natCast] at hjs
      obtain ⟨vs, w', hmget, hcontents, hprims', hhits', hmisses', herrors'⟩ :=
        kvCall_mget_found hapi (js.map fun j : ℕ => indexKey j) (by simpa [hjs] using hfits)
          (w := ⟨s, y.stats⟩) (by
            intro k hk
            obtain ⟨j, hj, rfl⟩ := List.mem_map.mp hk
            exact ⟨indexValue, (hs _ _).mpr ⟨rfl, j, hall j hj, rfl⟩⟩)
      rw [step_callOnce_andThen (r := ⟨⟨s, y.stats⟩, y.made⟩) hmget (by simp)] at hstep
      obtain ⟨rfl, rfl⟩ := Prod.mk.inj (Option.some.inj hstep)
      have hlen : KvVerb.made [luaKeys (js.map fun j : ℕ => indexKey j)] .mget = .mget b := by
        rw [← hjs]
        simp [KvVerb.made, luaLLen, luaArg, luaKeys]
      rw [List.length_map, hjs] at hprims' hhits'
      dsimp only at hprims' hhits' hmisses' herrors'
      rw [hlen]
      refine ⟨hcontents, hrest _ _, ?_⟩
      exact hcounts.add (.inl rfl) rfl hprims' (by simpa using hhits') hmisses' herrors'
    | mput js hjs hall =>
      rw [Int.toNat_natCast] at hjs
      obtain ⟨w', hmput, hcontents, hprims', hhits', hmisses', herrors'⟩ :=
        kvCall_mput_whole hapi (js.map fun j : ℕ => (indexKey j, indexValue))
          (by simpa [hjs] using hfits) ⟨s, y.stats⟩
      rw [hs.putbatch (by
            intro kv hkv
            obtain ⟨j, hj, rfl⟩ := List.mem_map.mp hkv
            exact ⟨rfl, j, hall j hj, rfl⟩)] at hcontents
      rw [step_callOnce_andThen (r := ⟨⟨s, y.stats⟩, y.made⟩) hmput (by simp)] at hstep
      obtain ⟨rfl, rfl⟩ := Prod.mk.inj (Option.some.inj hstep)
      have hlen : KvVerb.made [luaPairList (js.map fun j : ℕ => (indexKey j, indexValue))] .mput
          = .mput b := by
        rw [← hjs]
        simp [KvVerb.made, luaLLen, luaArg, luaPairList]
      rw [List.length_map, hjs] at hprims'
      dsimp only at hprims' hhits' hmisses' herrors'
      rw [hlen]
      refine ⟨hcontents, hrest _ _, ?_⟩
      exact hcounts.add (.inr rfl) rfl hprims' (by simpa using hhits') hmisses' herrors'

/-- Loaders of batch and of scan fill a store that held values of the index only. -/
theorem loaders_fill (hapi : api.IsMap c) (hitems : 1 ≤ items) {T : ℕ} (hT : 1 ≤ T)
    {W : Workload} (hW : ∀ thread threads g, W.load rng items thread threads g
      = indexLoad 512 indexValue items thread threads) {g : Fin T → G} {s : S}
    (hs : HoldsOnly (IndexPair items indexValue) (c s)) {ts : List (Fin T)}
    {x : LuaThreads S (Fin T)}
    (hrun : run (luaStep api) (.begin s fun t : Fin T => W.loader rng items t T (g t)) ts = some x)
    (hends : ∀ t, (x.thread t).prog.returned) :
  HoldsIndex items indexValue (c x.store)
  := by
  apply loaders_holdIndex (b := 512) hapi (by norm_num) (by norm_num) hitems hT _ hs hrun hends
  intro t batches hload
  rw [Workload.loader, hW, hload]

/-- A measurement of batch from an empty store, or one with values of the index only: at each moment
the store holds the value of each index, every call has handed over `b` keys, every lookup has found
its key, and a worker that has ended has made all its calls. -/
theorem measure_batch (hapi : api.IsMap c) {b : ℕ} (hb : 1 ≤ b) (hfits : b < 2 ^ 31)
    (hitems : 1 ≤ items) {T N : ℕ} (hT : 1 ≤ T) {calls : Fin N → ℕ} {g : Fin T → G}
    {h : Fin N → G} {ts : List (Fin T)} {us : List (Fin N)} {s : S}
    (hs : HoldsOnly (IndexPair items indexValue) (c s)) {y : LuaThreads S (Fin N)}
    (hrun : Workload.measure rng hot (.batch b) items api calls g h ts us s = some y) :
  HoldsIndex items indexValue (c y.store) ∧ ∀ n, BatchCounts b (y.thread n) ∧
    ((y.thread n).prog.returned → (y.thread n).made.length = calls n)
  := by
  obtain ⟨x, hload, hrun⟩ := Option.bind_eq_some_iff.mp hrun
  split_ifs at hrun with hends
  have hx := loaders_fill hapi hitems hT (fun _ _ _ => rfl) hs hload hends
  have hbegin : ∀ n : Fin N, LuaThread.Calls rng hot items (.batch b) (calls n)
      (.start ((Workload.batch b).worker rng hot items (calls n) (h n))) ∧
      BatchCounts b (.start ((Workload.batch b).worker rng hot items (calls n) (h n))) := by
    intro n
    refine ⟨.start (calls n) (h n), ⟨?_, rfl, rfl, rfl, rfl⟩⟩
    intro m hm
    cases hm
  have hstep : ∀ (n : Fin N) (y : LuaThread) (s : S) prog' r',
      (y.Calls rng hot items (.batch b) (calls n) ∧ BatchCounts b y) →
      HoldsIndex items indexValue (c s) →
      y.prog.step api ⟨⟨s, y.stats⟩, y.made⟩ = some (prog', r') →
      HoldsIndex items indexValue (c r'.worker.store) ∧
        LuaThread.Calls rng hot items (.batch b) (calls n) ⟨prog', r'.worker.stats, r'.made⟩ ∧
        BatchCounts b ⟨prog', r'.worker.stats, r'.made⟩ := by
    intro n y s prog' r' ⟨hcalls, hcounts⟩ hs hstep
    obtain ⟨hcontents, hafter⟩ := batch_step hapi hb hfits hitems hs hcalls hcounts hstep
    rw [hcontents]
    exact ⟨hs, hafter⟩
  obtain ⟨hy, hthreads⟩ := run_luaStep_induct (I := fun s => HoldsIndex items indexValue (c s))
    (J := fun n y => y.Calls rng hot items (.batch b) (calls n) ∧ BatchCounts b y)
    (x := .begin x.store fun n => (Workload.batch b).worker rng hot items (calls n) (h n)) hstep hx
    hbegin hrun
  use hy
  intro n
  obtain ⟨hcalls, hcounts⟩ := hthreads n
  use hcounts
  intro hret
  rcases hcalls.cases (exists_run_batch hitems hb) with
    ⟨-, hlen⟩ | ⟨prog, rest, hcall, hprog, -⟩
  · apply hlen
  · rw [hprog] at hret
    cases hcall <;> cases hret

/-! ## Scans -/

/-- The rows of `n` indices from `start` on. -/
def indexRows (value : Bytes) (start n : ℕ) : List (Bytes × Bytes) :=
  (List.range n).map fun j => (indexKey (start + j : ℕ), value)

/-- The number of rows that a call of `run` of scan visits. -/
def scanCount (items : ℤ) : ℕ := (min items scanRunWindow).toNat

/-- Lookups of indices in a full index. -/
theorem HoldsIndex.lookup {value : Bytes} {m : Contents} (hm : HoldsIndex items value m) (i : ℕ) :
  m.lookup (indexKey i) = if (i : ℤ) < items then some value else none
  := by
  split_ifs with hlt
  · exact (hm _ _).mpr ⟨rfl, i, hlt, rfl⟩
  · rw [Option.eq_none_iff_forall_ne_some]
    intro v hv
    obtain ⟨-, j, hj, hkey⟩ := (hm _ _).mp hv
    rw [indexKey_injective hkey] at hj
    exact hlt hj

/-- The slice of a full index that a call of `run` of scan asks for. -/
theorem HoldsIndex.slice_window {value : Bytes} {m : Contents} (hm : HoldsIndex items value m)
    (hitems : 1 ≤ items) (hwidth : items + scanRunWindow ≤ 10 ^ 12) {start : ℕ}
    (hstart : (start : ℤ) ≤ max 0 (items - scanRunWindow)) :
  start + scanCount items ≤ items ∧
    m.slice (indexKey start) (indexKey (start + scanRunWindow))
      = indexRows value start (scanCount items)
  := by
  have hwindow : scanRunWindow = 1000 := rfl
  rw [hwindow] at hwidth hstart
  have hcount : (scanCount items : ℤ) = min items 1000 := by
    rw [scanCount, Int.toNat_of_nonneg (by omega), hwindow]
  obtain ⟨rest, hrest⟩ : ∃ rest, 1000 = scanCount items + rest :=
    Nat.exists_eq_add_of_le (by omega)
  have horder : ∀ i j, i < items.toNat + 1000 → j < items.toNat + 1000 →
      (indexKey (i : ℕ) < indexKey (j : ℕ) ↔ i < j) :=
    fun i j hi hj => indexKey_lt_iff (by omega) (by omega)
  have hkeys : ∀ k v, m.lookup k = some v → ∃ i < items.toNat + 1000, indexKey (i : ℕ) = k := by
    intro k v hv
    obtain ⟨-, i, hi, hkey⟩ := (hm _ _).mp hv
    exact ⟨i, by omega, hkey⟩
  have hend : (start : ℤ) + scanRunWindow = (start + 1000 : ℕ) := by
    rw [hwindow]
    push_cast
    rfl
  constructor
  · omega
  · rw [hend, OrderedMap.slice_eq_window horder (by omega) hkeys, hrest, indexRows]
    apply OrderedMap.window_eq_map
    · intro j hj
      rw [hm.lookup, if_pos (by omega)]
    · intro j hj
      rw [hm.lookup, if_neg (by omega)]

/-- `kv.scan` with a callback that passes all rows, without a limit. -/
theorem lScan_passes (hapi : api.IsMap c) (lo hi : Bytes) (r : LuaRun S) :
  ∃ r', lScan api (fun r _ _ => runLua api (.ret false) r) lo hi 0 r
      = (.integer ((c r.worker.store).slice lo hi).length, r') ∧
    c r'.worker.store = c r.worker.store ∧ r'.made = r.made ∧
    r'.worker.stats.primOps = r.worker.stats.primOps + 1
  := by
  let fn : LuaRun S → Bytes → Bytes → LuaEnd × LuaRun S := fun r _ _ => runLua api (.ret false) r
  let start : LuaRun S :=
    { r with worker := { r.worker with store := (api.nowNs r.worker.store).2 } }
  let rows := (c r.worker.store).slice lo hi
  have hleading : leading (toCInt 0) ((c (api.nowNs r.worker.store).2).slice lo hi) = rows := by
    rw [hapi.nowNs]
    rfl
  have hnever : NeverStops fn := fun _ _ _ => rfl
  have hvisit : ∀ rows : List (Bytes × Bytes), visitRows fn rows start = start := by
    intro rows
    induction rows with
    | nil => rfl
    | cons row rows ih => exact ih
  have hscan := scan_neverStops hnever rows start
  have hstate := hapi.reads.rows (api.nowNs r.worker.store).2 lo hi (toCInt 0) (scanCb fn)
    (start, false)
  have hcount := hapi.reads.count (api.nowNs r.worker.store).2 lo hi (toCInt 0) (scanCb fn)
    (start, false)
  rw [hleading] at hstate hcount
  rw [hscan, hvisit] at hstate
  have hpasses : Passes (scanCb fn) rows (start, false) := by
    apply passes_of_not_raised
    · intro st k v h
      cases h
    · rw [hscan]
  have hrange : api.range (api.nowNs r.worker.store).2 lo hi (toCInt 0) (scanCb fn) (start, false)
      = ((rows.length : ℤ), (start, false)) := Prod.ext (hcount hpasses) hstate
  refine ⟨_, lScan_of_range hrange, ?_, rfl, rfl⟩
  change c (api.nowNs (api.nowNs r.worker.store).2).2 = _
  rw [hapi.nowNs, hapi.nowNs]

/-- What a worker of scan has counted. -/
structure ScanCounts (y : LuaThread) : Prop where
  made : ∀ m ∈ y.made, m = .scan
  prims : y.stats.primOps = y.made.length

/-- The next verb of a worker is a scan that visits the rows of `scanCount` indices one after the
other, all of them below `items`, and answers their number. -/
structure ScansNext (items : ℤ) (api : KvStore S) (c : S → Contents) (s : S) (y : LuaThread)
    (next : LuaProg) (r : LuaRun S) : Prop where
  rows : ∃ (start : ℕ) (lo hi : Bytes) (go : LuaAnswer → LuaProg),
    start + scanCount items ≤ items ∧
    y.prog = .scan (luaString lo) (luaString hi) true (fun _ _ => .ret false) .nil go ∧
    (c s).slice lo hi = indexRows indexValue start (scanCount items) ∧
    next = go (.integer (scanCount items))
  step : y.prog.step api ⟨⟨s, y.stats⟩, y.made⟩ = some (next, r)

/-- A call of `run` of scan on a full index. -/
theorem scan_step (hapi : api.IsMap c) (hitems : 1 ≤ items)
    (hwidth : items + scanRunWindow ≤ 10 ^ 12) {calls : ℕ} {y : LuaThread} {s : S}
    (hs : HoldsIndex items indexValue (c s)) (hy : y.Calls rng hot items .scan calls)
    (hcounts : ScanCounts y) :
  (y.prog = .ret false ∧ y.made.length = calls) ∨
    ∃ next r, ScansNext items api c s y next r ∧ c r.worker.store = c s ∧
      LuaThread.Calls rng hot items .scan calls ⟨next, r.worker.stats, r.made⟩ ∧
      ScanCounts ⟨next, r.worker.stats, r.made⟩
  := by
  rcases hy.cases (exists_run_scan hitems) with hret | ⟨prog, rest, hcall, hprog, hrest⟩
  · exact .inl hret
  · right
    cases hcall with
    | scan start _ hstart =>
      obtain ⟨hall, hslice⟩ := hs.slice_window hitems hwidth hstart
      obtain ⟨r, hscan, hcontents, hmade, hprims⟩ := lScan_passes hapi (indexKey start)
        (indexKey (start + scanRunWindow)) ⟨⟨s, y.stats⟩, y.made⟩
      dsimp only at hcontents hmade hprims
      rw [hslice, indexRows, List.length_map, List.length_range] at hscan
      refine ⟨rest, { r with made := r.made ++ [.scan] },
        ⟨⟨start, _, _, _, hall, hprog, hslice, rfl⟩, ?_⟩, hcontents, ?_, ?_⟩
      · rw [hprog]
        apply step_scanOnce_andThen hscan
      · dsimp only
        rw [hmade]
        apply hrest
      · constructor
        · intro m hm
          dsimp only at hm
          rw [hmade] at hm
          rcases List.mem_append.mp hm with hm | hm
          · apply hcounts.made m hm
          · exact List.mem_singleton.mp hm
        · dsimp only
          rw [hprims, hmade, hcounts.prims, List.length_append, List.length_singleton]

/-- A measurement of scan from an empty store, or one with values of the index only: at each moment
the store holds the value of each index, every call has been a scan, and a worker has ended with all
its calls made or its next scan visits a whole window. -/
theorem measure_scan (hapi : api.IsMap c) (hitems : 1 ≤ items)
    (hwidth : items + scanRunWindow ≤ 10 ^ 12) {T N : ℕ} (hT : 1 ≤ T) {calls : Fin N → ℕ}
    {g : Fin T → G} {h : Fin N → G} {ts : List (Fin T)} {us : List (Fin N)} {s : S}
    (hs : HoldsOnly (IndexPair items indexValue) (c s)) {y : LuaThreads S (Fin N)}
    (hrun : Workload.measure rng hot .scan items api calls g h ts us s = some y) :
  HoldsIndex items indexValue (c y.store) ∧ ∀ n, ScanCounts (y.thread n) ∧
    (((y.thread n).prog = .ret false ∧ (y.thread n).made.length = calls n) ∨
      ∃ next r, ScansNext items api c y.store (y.thread n) next r)
  := by
  obtain ⟨x, hload, hrun⟩ := Option.bind_eq_some_iff.mp hrun
  split_ifs at hrun with hends
  have hx := loaders_fill hapi hitems hT (fun _ _ _ => rfl) hs hload hends
  have hbegin : ∀ n : Fin N, LuaThread.Calls rng hot items .scan (calls n)
      (.start (Workload.scan.worker rng hot items (calls n) (h n))) ∧
      ScanCounts (.start (Workload.scan.worker rng hot items (calls n) (h n))) := by
    intro n
    refine ⟨.start (calls n) (h n), ⟨?_, rfl⟩⟩
    intro m hm
    cases hm
  have hstep : ∀ (n : Fin N) (y : LuaThread) (s : S) prog' r',
      (y.Calls rng hot items .scan (calls n) ∧ ScanCounts y) → HoldsIndex items indexValue (c s) →
      y.prog.step api ⟨⟨s, y.stats⟩, y.made⟩ = some (prog', r') →
      HoldsIndex items indexValue (c r'.worker.store) ∧
        LuaThread.Calls rng hot items .scan (calls n) ⟨prog', r'.worker.stats, r'.made⟩ ∧
        ScanCounts ⟨prog', r'.worker.stats, r'.made⟩ := by
    intro n y s prog' r' ⟨hcalls, hcounts⟩ hs hstep
    rcases scan_step hapi hitems hwidth hs hcalls hcounts with
      ⟨hret, -⟩ | ⟨next, r, hnext, hcontents, hafter⟩
    · rw [hret] at hstep
      cases hstep
    · obtain ⟨rfl, rfl⟩ := Prod.mk.inj (Option.some.inj (hnext.step.symm.trans hstep))
      rw [hcontents]
      exact ⟨hs, hafter⟩
  obtain ⟨hy, hthreads⟩ := run_luaStep_induct (I := fun s => HoldsIndex items indexValue (c s))
    (J := fun n y => y.Calls rng hot items .scan (calls n) ∧ ScanCounts y)
    (x := .begin x.store fun n => Workload.scan.worker rng hot items (calls n) (h n)) hstep hx hbegin
    hrun
  use hy
  intro n
  obtain ⟨hcalls, hcounts⟩ := hthreads n
  use hcounts
  exact (scan_step hapi hitems hwidth hy hcalls hcounts).imp_right
    fun ⟨next, r, hnext, _⟩ => ⟨next, r, hnext⟩

end Workers

/-- A measurement of batch with three indices by two loaders and two workers whose turns interleave:
the first worker reads and the second writes. -/
theorem measure_batch_example :
  ∃ y : LuaThreads Contents (Fin 2),
    (Workload.batch (2 : ℕ)).measure steadyRandom (fun _ g => (0, g)) 3 mapStore (fun _ => 2)
      (fun _ : Fin 2 => 0) (fun n => 70 * n.val.toUInt32) [1, 0] [0, 1, 1, 0]
      (OrderedMap.empty : Contents) = some y ∧
    HoldsIndex 3 indexValue y.store ∧ ∀ n, BatchCounts 2 (y.thread n) ∧
      ((y.thread n).prog.returned → (y.thread n).made.length = 2)
  := by
  obtain ⟨y, hrun⟩ : ∃ y : LuaThreads Contents (Fin 2),
      (Workload.batch (2 : ℕ)).measure steadyRandom (fun _ g => (0, g)) 3 mapStore (fun _ => 2)
        (fun _ : Fin 2 => 0) (fun n => 70 * n.val.toUInt32) [1, 0] [0, 1, 1, 0]
        (OrderedMap.empty : Contents) = some y := ⟨_, rfl⟩
  exact ⟨y, hrun, measure_batch mapStore_isMap (by decide) (by decide) (by decide) (by decide)
    .empty hrun⟩

/-- A measurement of scan with three indices by two loaders and two workers, one of which is still
to scan. -/
theorem measure_scan_example :
  ∃ y : LuaThreads Contents (Fin 2),
    Workload.scan.measure steadyRandom (fun _ g => (0, g)) 3 mapStore (fun _ => 2)
      (fun _ : Fin 2 => 0) (fun _ => 0) [1, 0] [1, 0, 1] (OrderedMap.empty : Contents) = some y ∧
    HoldsIndex 3 indexValue y.store ∧ ∀ n, ScanCounts (y.thread n) ∧
      (((y.thread n).prog = .ret false ∧ (y.thread n).made.length = 2) ∨
        ∃ next r, ScansNext 3 mapStore id y.store (y.thread n) next r)
  := by
  obtain ⟨y, hrun⟩ : ∃ y : LuaThreads Contents (Fin 2),
      Workload.scan.measure steadyRandom (fun _ g => (0, g)) 3 mapStore (fun _ => 2)
        (fun _ : Fin 2 => 0) (fun _ => 0) [1, 0] [1, 0, 1] (OrderedMap.empty : Contents)
        = some y := ⟨_, rfl⟩
  exact ⟨y, hrun, measure_scan mapStore_isMap (by decide) (by decide) (by decide) .empty hrun⟩

end Keybench
