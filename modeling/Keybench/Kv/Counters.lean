import Keybench.Kv.Verbs

/-!
# The counters of a worker

`OpStats.Counts` says that statistics count a list of calls: the primitive operations and
lookups of the calls, and the calls of each kind.  Every verb counts itself exactly once and
no rejected call counts at all, so the statistics after a run count the calls made in it, with
a list counted for as many elements as its verb reads (`runLua_counted`).  A verb reads all
elements of a list whose length fits an `int`, and then the statistics count the lists at
their full lengths (`runLua_counts`).
-/

namespace Keybench

variable {S : Type}

/-! ## Counting calls -/

section Counting

variable (count : ℤ → ℕ)

/-- The primitive operations of a call, when a list of length `len` counts for
`count len`. -/
def KvMade.prims : KvMade → ℕ
  | .mget len => count len
  | .mput len => count len
  | .mdel len => count len
  | _ => 1

/-- The lookups of a call. -/
def KvMade.lookups : KvMade → ℕ
  | .get => 1
  | .mget len => count len
  | _ => 0

/-- The kind of a call; a scan is a range. -/
def KvMade.op : KvMade → KvOp
  | .put => .put
  | .get => .get
  | .del => .del
  | .range => .range
  | .scan => .range
  | .mget _ => .mget
  | .mput _ => .mput
  | .mdel _ => .mdel

/-- The lookups that statistics hold. -/
def OpStats.lookups (s : OpStats) : ℕ := s.getHits + s.getMisses + s.getErrors

/-- Statistics count a list of calls. -/
structure OpStats.Counts (s : OpStats) (made : List KvMade) : Prop where
  prims : s.primOps = (made.map (KvMade.prims count)).sum
  lookups : s.lookups = (made.map (KvMade.lookups count)).sum
  calls : ∀ op, (s.h op).count = made.countP (fun m => m.op = op)

/-- Statistics go on to count one more call. -/
structure OpStats.Advances (s s' : OpStats) (m : KvMade) : Prop where
  prims : s'.primOps = s.primOps + m.prims count
  lookups : s'.lookups = s.lookups + m.lookups count
  calls : ∀ op, (s'.h op).count = (s.h op).count + if m.op = op then 1 else 0

end Counting

/-- Reset statistics count no call. -/
theorem OpStats.Counts.reset (count : ℤ → ℕ) :
  statsReset.Counts count []
  := by
  constructor
  case prims => rfl
  case lookups => rfl
  case calls =>
    intro op
    rfl

/-- Statistics that count some calls and go on to count one more count them all. -/
theorem OpStats.Counts.advance {count : ℤ → ℕ} {s s' : OpStats} {made : List KvMade} {m : KvMade}
    (h : s.Counts count made) (hm : s.Advances count s' m) :
  s'.Counts count (made ++ [m])
  := by
  constructor
  case prims => rw [hm.prims, h.prims, List.map_append, List.sum_append, List.map_singleton,
    List.sum_singleton]
  case lookups => rw [hm.lookups, h.lookups, List.map_append, List.sum_append, List.map_singleton,
    List.sum_singleton]
  case calls =>
    intro op
    rw [hm.calls, h.calls, List.countP_append, List.countP_singleton]
    simp only [decide_eq_true_eq]

/-- How lists count only matters at the lengths of the lists. -/
theorem OpStats.Counts.congr {count count' : ℤ → ℕ} {s : OpStats} {made : List KvMade}
    (h : s.Counts count made)
    (hcount : ∀ m ∈ made, ∀ len, m = .mget len ∨ m = .mput len ∨ m = .mdel len →
      count len = count' len) :
  s.Counts count' made
  := by
  have hprims : ∀ m ∈ made, m.prims count = m.prims count' := by
    intro m hm
    cases m with
    | mget len => apply hcount _ hm len (by simp)
    | mput len => apply hcount _ hm len (by simp)
    | mdel len => apply hcount _ hm len (by simp)
    | _ => rfl
  have hlookups : ∀ m ∈ made, m.lookups count = m.lookups count' := by
    intro m hm
    cases m with
    | mget len => apply hcount _ hm len (by simp)
    | _ => rfl
  constructor
  case prims => rw [h.prims, List.map_congr_left hprims]
  case lookups => rw [h.lookups, List.map_congr_left hlookups]
  case calls => apply h.calls

/-! ## The verbs -/

/-- The worker after the latency of a call of kind `op` and its `n` primitive operations are
recorded. -/
def Worker.recordCall (w : Worker S) (store : S) (op : KvOp) (ns : UInt64) (n : ℕ) : Worker S :=
  (({ w with store } : Worker S).record (.latency op ns)).record (.prim n)

/-- A recorded call adds its primitive operations and one call of its kind, and no lookup. -/
theorem recordCall_spec (w : Worker S) (store : S) (op : KvOp) (ns : UInt64) (n : ℕ) :
  (w.recordCall store op ns n).stats.primOps = w.stats.primOps + n ∧
    (w.recordCall store op ns n).stats.lookups = w.stats.lookups ∧
    ∀ op', ((w.recordCall store op ns n).stats.h op').count
      = (w.stats.h op').count + if op = op' then 1 else 0
  := by
  and_intros
  · rfl
  · rfl
  · intro op'
    simp only [Worker.recordCall, Worker.record, statsRecord, Function.update_apply]
    by_cases h : op' = op
    · subst h
      simp [histRecord]
    · simp [h, Ne.symm h]

/-- A recorded lookup adds one lookup and nothing else. -/
theorem record_foundEvent (w : Worker S) (found : ℤ) :
  (w.record (foundEvent found)).stats.primOps = w.stats.primOps ∧
    (w.record (foundEvent found)).stats.lookups = w.stats.lookups + 1 ∧
    (w.record (foundEvent found)).stats.h = w.stats.h
  := by
  rw [foundEvent]
  split_ifs
  · simp only [Worker.record, statsRecord, OpStats.lookups, true_and, and_true]
    omega
  · simp only [Worker.record, statsRecord, OpStats.lookups, true_and, and_true]
    omega
  · simp only [Worker.record, statsRecord, OpStats.lookups, true_and, and_true]
    omega

/-- Recorded lookups add as many lookups and nothing else. -/
theorem foldl_record_foundEvent (founds : List (ℤ × Bytes)) (w : Worker S) :
  (founds.foldl (fun w f => w.record (foundEvent f.1)) w).stats.primOps = w.stats.primOps ∧
    (founds.foldl (fun w f => w.record (foundEvent f.1)) w).stats.lookups
      = w.stats.lookups + founds.length ∧
    (founds.foldl (fun w f => w.record (foundEvent f.1)) w).stats.h = w.stats.h
  := by
  induction founds generalizing w with
  | nil => simp
  | cons f founds ih =>
    obtain ⟨hprims, hlookups, hcalls⟩ := ih (w.record (foundEvent f.1))
    obtain ⟨hprims', hlookups', hcalls'⟩ := record_foundEvent w f.1
    rw [List.foldl_cons, hprims, hlookups, hcalls, List.length_cons]
    and_intros
    · apply hprims'
    · omega
    · apply hcalls'

/-- A recorded call with its lookups is counted. -/
theorem advances_recordCall (w : Worker S) (store : S) (ns : UInt64) {m : KvMade}
    (founds : List (ℤ × Bytes)) (hlookups : m.lookups listCount = founds.length) :
  w.stats.Advances listCount (founds.foldl (fun w f => w.record (foundEvent f.1))
    (w.recordCall store m.op ns (m.prims listCount))).stats m
  := by
  obtain ⟨hprims, hsame, hcalls⟩ := recordCall_spec w store m.op ns (m.prims listCount)
  obtain ⟨hprims', hlookups', hcalls'⟩ :=
    foldl_record_foundEvent founds (w.recordCall store m.op ns (m.prims listCount))
  constructor
  case prims => rw [hprims', hprims]
  case lookups => rw [hlookups', hsame, hlookups]
  case calls =>
    intro op
    rw [hcalls', hcalls]

/-- The lookups of a list answer every key. -/
theorem length_storeGets (api : KvStore S) :
  ∀ (s : S) (ks : List Bytes), (storeGets api s ks).1.length = ks.length
  | _, [] => rfl
  | s, k :: ks => by
    simp only [storeGets, List.length_cons]
    rw [length_storeGets api _ ks]

/-- A call that is not rejected is counted once. -/
theorem kvCall_advances {api : KvStore S} {args : List LuaArg} {w w' : Worker S} {verb : KvVerb}
    {answer : LuaAnswer} (h : kvCall api args w verb = some (answer, w')) :
  w.stats.Advances listCount w'.stats (verb.made args)
  := by
  cases verb with
  | put =>
    obtain ⟨k, -, h⟩ := Option.bind_eq_some_iff.mp h
    obtain ⟨v, -, h⟩ := Option.bind_eq_some_iff.mp h
    obtain ⟨-, rfl⟩ := Prod.mk.inj (Option.some.inj h)
    apply advances_recordCall (m := .put) w _ _ [] rfl
  | get =>
    obtain ⟨k, -, h⟩ := Option.bind_eq_some_iff.mp h
    obtain ⟨-, rfl⟩ := Prod.mk.inj (Option.some.inj h)
    let found := api.get (api.nowNs w.store).2 k
    apply advances_recordCall (m := .get) w _ _ [(found.1, found.2.1)] rfl
  | del =>
    obtain ⟨k, -, h⟩ := Option.bind_eq_some_iff.mp h
    obtain ⟨-, rfl⟩ := Prod.mk.inj (Option.some.inj h)
    apply advances_recordCall (m := .del) w _ _ [] rfl
  | range =>
    obtain ⟨lo, -, h⟩ := Option.bind_eq_some_iff.mp h
    obtain ⟨hi, -, h⟩ := Option.bind_eq_some_iff.mp h
    obtain ⟨limit, -, h⟩ := Option.bind_eq_some_iff.mp h
    obtain ⟨-, rfl⟩ := Prod.mk.inj (Option.some.inj h)
    apply advances_recordCall (m := .range) w _ _ [] rfl
  | mget =>
    rw [kvCall, lMget] at h
    split at h
    case h_1 len geti _ harg =>
      obtain ⟨ks, hks, h⟩ := Option.bind_eq_some_iff.mp h
      obtain ⟨-, rfl⟩ := Prod.mk.inj (Option.some.inj h)
      have hlen : luaLLen args = len := by rw [luaLLen, harg]
      rw [KvVerb.made, hlen]
      let founds := storeGets api (api.nowNs w.store).2 ks
      have hfounds : listCount len = founds.1.length :=
        ((length_storeGets api _ ks).trans (length_luaStrings hks)).symm
      apply advances_recordCall (m := .mget len) w _ _ founds.1 hfounds
    case h_2 => cases h
  | mput =>
    rw [kvCall, lMput] at h
    split at h
    case h_1 len geti _ harg =>
      obtain ⟨kvs, -, h⟩ := Option.bind_eq_some_iff.mp h
      obtain ⟨-, rfl⟩ := Prod.mk.inj (Option.some.inj h)
      have hlen : luaLLen args = len := by rw [luaLLen, harg]
      rw [KvVerb.made, hlen]
      apply advances_recordCall (m := .mput len) w _ _ [] rfl
    case h_2 => cases h
  | mdel =>
    rw [kvCall, lMdel] at h
    split at h
    case h_1 len geti _ harg =>
      obtain ⟨ks, -, h⟩ := Option.bind_eq_some_iff.mp h
      obtain ⟨-, rfl⟩ := Prod.mk.inj (Option.some.inj h)
      have hlen : luaLLen args = len := by rw [luaLLen, harg]
      rw [KvVerb.made, hlen]
      apply advances_recordCall (m := .mdel len) w _ _ [] rfl
    case h_2 => cases h

/-! ## Runs -/

/-- The statistics of a run count its calls. -/
def LuaRun.Counted (r : LuaRun S) : Prop := r.worker.stats.Counts listCount r.made

/-- A scan whose callback keeps the calls counted is counted once, whether the callback stops
it, raises an error or does neither. -/
theorem lScan_counted {api : KvStore S} {fn : LuaRun S → Bytes → Bytes → LuaEnd × LuaRun S}
    (hfn : ∀ r k v, r.Counted → (fn r k v).2.Counted) (lo hi : Bytes) (limit : ℤ) {r : LuaRun S}
    (h : r.Counted) :
  ({ (lScan api fn lo hi limit r).2 with
    made := (lScan api fn lo hi limit r).2.made ++ [.scan] } : LuaRun S).Counted
  := by
  let start : LuaRun S :=
    { r with worker := { r.worker with store := (api.nowNs r.worker.store).2 } }
  obtain ⟨rows, hrows⟩ := api.range_calls (api.nowNs r.worker.store).2 lo hi (toCInt limit)
    (scanCb fn) (start, false)
  have hcb : ∀ st k v, st.1.Counted → (scanCb fn st k v).2.1.Counted := by
    intro st k v hst
    have hnext := hfn st.1 k v hst
    rw [scanCb]
    split
    case h_1 heq =>
      rw [heq] at hnext
      apply hnext
    case h_2 heq =>
      rw [heq] at hnext
      apply hnext
  have hstate : (scan (scanCb fn) rows (start, false)).state.1.Counted :=
    scan_state_of_step (P := fun st : LuaRun S × Bool => st.1.Counted) hcb rows _ h
  rw [← hrows] at hstate
  apply hstate.advance
  apply advances_recordCall (m := .scan) _ _ _ [] rfl

/-- Every run counts its calls. -/
theorem runLua_counted (api : KvStore S) :
  ∀ (prog : LuaProg) (r : LuaRun S), r.Counted → (runLua api prog r).2.Counted
  | .ret _, _, h => h
  | .raise, _, h => h
  | .call verb args next, r, h => by
    rw [runLua]
    split
    case h_1 => apply runLua_counted api _ _ h
    case h_2 answer worker heq =>
      apply runLua_counted api
      apply h.advance (kvCall_advances heq)
  | .scan lo hi callable fn limit next, r, h => by
    rw [runLua]
    split
    case h_1 => apply runLua_counted api _ _ h
    case h_2 lo hi limit heq =>
      apply runLua_counted api
      apply lScan_counted _ lo hi limit h
      intro r k v hr
      apply runLua_counted api (fn k v) r hr

/-- A list call has a length that fits an `int`. -/
def KvMade.Fits (m : KvMade) : Prop :=
  ∀ len, m = .mget len ∨ m = .mput len ∨ m = .mdel len → -2147483648 ≤ len ∧ len < 2147483648

/-- When the length of every list fits an `int`, a worker counts the calls of a workload with
all elements of their lists. -/
theorem runLua_counts (api : KvStore S) (prog : LuaProg) (store : S)
    (hfits : ∀ m ∈ (runLua api prog ⟨⟨store, statsReset⟩, []⟩).2.made, m.Fits) :
  (runLua api prog ⟨⟨store, statsReset⟩, []⟩).2.worker.stats.Counts Int.toNat
    (runLua api prog ⟨⟨store, statsReset⟩, []⟩).2.made
  := by
  have hcounted := runLua_counted api prog ⟨⟨store, statsReset⟩, []⟩ (OpStats.Counts.reset _)
  apply hcounted.congr
  intro m hm len hlen
  obtain ⟨hlo, hhi⟩ := hfits m hm len hlen
  apply listCount_of_fits hlo hhi

/-- A store that finds every key and whose ranges have one row. -/
def oneRowStore : KvStore Unit where
  nowNs _ := (0, ())
  put _ _ _ := (0, ())
  putbatch _ _ := (0, ())
  get _ _ := (1, [7], ())
  del _ _ := (1, ())
  delbatch _ _ := (0, ())
  range _ _ _ _ cb st := ((scan cb [([1], [2])] st).passed, (scan cb [([1], [2])] st).state)
  range_calls _ _ _ _ _ _ := ⟨[([1], [2])], rfl⟩

/-- A scan whose callback looks its row up and then raises an error, a rejected put and an
empty batch. -/
theorem runLua_counts_example :
  (runLua oneRowStore
      (.scan (.text [] none) (.text [9] none) true
        (fun k _ => .call .get [.text k none] (fun _ => .raise)) .nil
        (fun _ => .call .put [.other] (fun _ => .call .mdel
          [.table 0 (fun _ => .nil) (fun _ => .nil)] (fun _ => .ret false))))
      ⟨⟨(), statsReset⟩, []⟩).2.made = [.get, .scan, .mdel 0] ∧
    (runLua oneRowStore
      (.scan (.text [] none) (.text [9] none) true
        (fun k _ => .call .get [.text k none] (fun _ => .raise)) .nil
        (fun _ => .call .put [.other] (fun _ => .call .mdel
          [.table 0 (fun _ => .nil) (fun _ => .nil)] (fun _ => .ret false))))
      ⟨⟨(), statsReset⟩, []⟩).2.worker.stats.Counts Int.toNat [.get, .scan, .mdel 0]
  := by
  constructor
  · rfl
  · apply runLua_counts oneRowStore (.scan (.text [] none) (.text [9] none) true
      (fun k _ => .call .get [.text k none] (fun _ => .raise)) .nil
      (fun _ => .call .put [.other] (fun _ => .call .mdel
        [.table 0 (fun _ => .nil) (fun _ => .nil)] (fun _ => .ret false))))
    intro m hm len hlen
    have hmade : m ∈ [KvMade.get, .scan, .mdel 0] := hm
    simp only [List.mem_cons, List.not_mem_nil, or_false] at hmade
    rcases hmade with rfl | rfl | rfl
    · simp at hlen
    · simp at hlen
    · simp at hlen
      omega

/-- A lookup of a list of length `2 ^ 32` reads no element. -/
theorem runLua_not_counts :
  (runLua oneRowStore
      (.call .mget [.table 4294967296 (fun _ => .text [5] none) (fun _ => .nil)]
        (fun _ => .ret false)) ⟨⟨(), statsReset⟩, []⟩).2.made = [.mget 4294967296] ∧
    ¬ (runLua oneRowStore
      (.call .mget [.table 4294967296 (fun _ => .text [5] none) (fun _ => .nil)]
        (fun _ => .ret false)) ⟨⟨(), statsReset⟩, []⟩).2.worker.stats.Counts Int.toNat
          [.mget 4294967296]
  := by
  constructor
  · rfl
  · intro h
    have hprims := h.prims
    have hzero : (runLua oneRowStore
      (.call .mget [.table 4294967296 (fun _ => .text [5] none) (fun _ => .nil)]
        (fun _ => .ret false)) ⟨⟨(), statsReset⟩, []⟩).2.worker.stats.primOps = 0 := rfl
    rw [hzero] at hprims
    simp [KvMade.prims] at hprims

end Keybench
