import Keybench.Workload.IndexRuns
import Keybench.Workload.SharedRuns

/-!
# Batches and scans on one shared skiplist

The skiplist takes no batches: `kv.mput` of a loader and `kv.mget` and `kv.mput` of a worker of
batch call it once for each key, and other threads come in between.  When all loaders have returned
the skiplist holds the value of each index below `items`.  The workers of batch keep it so, and
every lookup of every call finds its key (`sharedMeasure_batch`).  Every scan of the workers of scan
reads a window of consecutive indices (`sharedMeasure_scan`).
-/

namespace Keybench

open Access Interleave RwLock

/-! ## Lists of calls -/

/-- The calls of `kv.mput` of some pairs that it reads all. -/
theorem verbCalls_mput (kvs : List (Bytes × Bytes)) (h : listCount kvs.length = kvs.length) :
  verbCalls [luaPairList kvs] .mput
    = some ⟨.mput, kvs.map fun kv => .put kv.1 kv.2, kvs.length, fun _ => [], fun _ => .nothing,
        .mput kvs.length⟩
  := by
  obtain ⟨geti, getfield, harg, hgeti⟩ := luaPairList_isPairs kvs
  have hread := luaPairs_take hgeti
  rw [h, List.take_length] at hread
  rw [harg]
  generalize (kvs.length : ℤ) = len at h
  have hlist : luaArg [.table len geti getfield] 1 = .table len geti getfield := rfl
  rw [verbCalls, hlist]
  simp only [h, hread, Option.bind_eq_bind, Option.bind_some]

/-- The calls of `kv.mget` of some keys that it reads all. -/
theorem verbCalls_mget (ks : List Bytes) (h : listCount ks.length = ks.length) :
  verbCalls [luaKeys ks] .mget
    = some ⟨.mget, ks.map .get, ks.length, fun as => as.map fun a => foundEvent a.code.1,
        fun as => .values (as.map SlAnswer.pushed), .mget ks.length⟩
  := by
  obtain ⟨geti, getfield, harg, hgeti⟩ := luaKeys_isKeys ks
  have hread := luaStrings_take hgeti
  rw [h, List.take_length] at hread
  rw [harg]
  generalize (ks.length : ℤ) = len at h
  have hlist : luaArg [.table len geti getfield] 1 = .table len geti getfield := rfl
  rw [verbCalls, hlist]
  simp only [h, hread, Option.bind_eq_bind, Option.bind_some]

section Calls

variable {K : Contents → Prop} {T : List KvNote → Prop}
  {Q : List (SlCall × SlAnswer) → List KvNote → LuaEnd → Prop} {P : SlCall → SlAnswer → Prop}
  {calls : List (SlCall × SlAnswer)} {notes : List KvNote}

/-- A program whose first verb is accepted. -/
theorem client_call_ensures {verb : KvVerb} {args : List LuaArg} {next : LuaAnswer → LuaProg}
    {v : VerbCalls} (hv : verbCalls args verb = some v)
    (hplain : (LuaProg.call verb args next).Plain)
    (hnow : T notes)
    (hcalls : ∀ call ∈ v.calls, ∀ m, K m → K (call.apply m) ∧ P call (call.answer m))
    (hT : ∀ ns as, List.Forall₂ P v.calls as → ∀ es, es <+: v.notes ns as → T (notes ++ es))
    (hQ : ∀ ns as, List.Forall₂ P v.calls as →
      ((next (v.answer as)).client (hplain (v.answer as))).Ensures mapServe K T Q
        (calls ++ v.calls.zip as) (notes ++ v.notes ns as)) :
  ((LuaProg.call verb args next).client hplain).Ensures mapServe K T Q calls notes
  := by
  rw [LuaProg.client]
  split
  · rename_i hnone
    cases hv.symm.trans hnone
  · rename_i v' hv'
    obtain rfl := Option.some.inj (hv.symm.trans hv')
    apply Client.Ensures.bind
    exact VerbCalls.client_ensures hnow hcalls hT hQ

/-- What a client ensures that runs a program, for the same program. -/
theorem ensures_congr {prog prog' : LuaProg} (h : prog = prog') {hplain : prog.Plain}
    (hprog : ∀ hplain' : prog'.Plain, (prog'.client hplain').Ensures mapServe K T Q calls notes) :
  (prog.client hplain).Ensures mapServe K T Q calls notes
  := by
  subst h
  apply hprog

/-- A call that is accepted and whose answer is discarded, and what comes after it. -/
theorem callOnce_ensures {verb : KvVerb} {args : List LuaArg} {rest : LuaProg} {v : VerbCalls}
    (hv : verbCalls args verb = some v) (hplain : ((callOnce verb args).andThen rest).Plain)
    (hne : ∀ as, v.answer as ≠ .raised) (hnow : T notes)
    (hcalls : ∀ call ∈ v.calls, ∀ m, K m → K (call.apply m) ∧ P call (call.answer m))
    (hT : ∀ ns as, List.Forall₂ P v.calls as → ∀ es, es <+: v.notes ns as → T (notes ++ es))
    (hQ : ∀ ns as, List.Forall₂ P v.calls as → ∀ hrest : rest.Plain,
      (rest.client hrest).Ensures mapServe K T Q (calls ++ v.calls.zip as)
        (notes ++ v.notes ns as)) :
  (((callOnce verb args).andThen rest).client hplain).Ensures mapServe K T Q calls notes
  := by
  apply client_call_ensures hv hplain hnow hcalls hT
  intro ns as has
  have hnext : LuaProg.andThen (if v.answer as = .raised then .raise else .ret false) rest
      = rest := by
    rw [if_neg (hne as)]
    rfl
  apply ensures_congr hnext
  apply hQ ns as has

end Calls

/-! ## Filling -/

/-- A client that hands batches over puts their pairs, in order. -/
theorem mputAll_ensures {P : Bytes → Bytes → Prop} {batches : List (List (Bytes × Bytes))}
    (hpairs : ∀ kv ∈ batches.flatten, P kv.1 kv.2)
    (hwhole : ∀ kvs ∈ batches, listCount kvs.length = kvs.length) (hplain : (mputAll batches).Plain)
    (calls : List (SlCall × SlAnswer)) (notes : List KvNote) :
  ((mputAll batches).client hplain).Ensures mapServe (HoldsOnly P) (fun _ => True)
    (fun calls' _ _ => calls'.map Prod.fst
      = calls.map Prod.fst ++ batches.flatten.map fun kv => .put kv.1 kv.2) calls notes
  := by
  induction batches generalizing calls notes with
  | nil =>
    apply Client.Ensures.done trivial
    simp
  | cons kvs rest ih =>
    rw [List.flatten_cons] at hpairs
    have hv := verbCalls_mput kvs (hwhole kvs List.mem_cons_self)
    revert hplain
    rw [mputAll]
    intro hplain
    apply client_call_ensures (P := fun _ _ => True) hv hplain trivial
    · intro call hmem m hm
      obtain ⟨kv, hkv, rfl⟩ := List.mem_map.mp hmem
      refine ⟨hm.apply ?_, trivial⟩
      rintro k v ⟨⟩
      exact hpairs kv (List.mem_append_left _ hkv)
    · exact fun _ _ _ _ _ => trivial
    · intro ns as has
      have hne : LuaAnswer.nothing ≠ .raised := by
        intro hraised
        cases hraised
      apply ensures_congr (if_neg hne)
      intro hrest
      have hops : (calls ++ (kvs.map fun kv => SlCall.put kv.1 kv.2).zip as).map Prod.fst
          = calls.map Prod.fst ++ kvs.map fun kv => SlCall.put kv.1 kv.2 := by
        rw [List.map_append, List.map_fst_zip has.length_eq.le]
      have h := ih (fun kv hkv => hpairs kv (List.mem_append_right _ hkv))
        (fun kvs' hkvs' => hwhole kvs' (List.mem_cons_of_mem _ hkvs')) hrest
        (calls ++ (kvs.map fun kv => SlCall.put kv.1 kv.2).zip as)
      simp only [hops, List.append_assoc, ← List.map_append, ← List.flatten_cons] at h
      apply h

/-- What calls leave that put pairs of a kind that has one value for each key. -/
theorem lookup_of_served {P : Bytes → Bytes → Prop} (hP : ∀ k v v', P k v → P k v' → v = v')
    {m m' : Contents} {calls : List (SlCall × SlAnswer)} (h : Served mapServe m calls m')
    (hputs : ∀ c ∈ calls, ∃ k v, c.1 = .put k v ∧ P k v) {k v : Bytes} (hkv : P k v)
    (hmem : SlCall.put k v ∈ calls.map Prod.fst ∨ m.lookup k = some v) :
  m'.lookup k = some v
  := by
  induction calls generalizing m with
  | nil =>
    obtain rfl : m = m' := h
    exact hmem.resolve_left List.not_mem_nil
  | cons c calls ih =>
    obtain ⟨n, hn, hrest⟩ := h
    obtain ⟨-, rfl⟩ := Prod.mk.inj (Option.some.inj hn)
    apply ih hrest (fun c' hc' => hputs c' (List.mem_cons_of_mem _ hc'))
    obtain ⟨k', v', hput, hkv'⟩ := hputs c List.mem_cons_self
    rw [hput, SlCall.apply, OrderedMap.lookup_insert]
    rw [List.map_cons, List.mem_cons, hput] at hmem
    rcases hmem with (heq | hmem) | hlook
    · obtain ⟨rfl, rfl⟩ := SlCall.put.inj heq
      exact .inr (if_pos rfl)
    · exact .inl hmem
    · right
      split_ifs with hkey
      · rw [hP k v v' hkv (hkey ▸ hkv')]
      · apply hlook

/-- Loaders of an index whose calls happen at once, when all of them have returned. -/
theorem shared_fill {b : ℕ} (hb : 0 < b) (hfits : b < 2 ^ 31) {value : Bytes} {items : ℤ}
    (hitems : 1 ≤ items) {T : ℕ} (hT : 1 ≤ T) {clients : Fin T → KvClient}
    (hclients : ∀ (t : Fin T) batches, indexLoad b value items t T = some batches →
      ∃ hplain, clients t = (mputAll batches).client hplain)
    {m : Contents} (hm : HoldsOnly (IndexPair items value) m) {es : List (Fin T × Turn UInt64)}
    {y : Shared Contents SlCall SlAnswer UInt64 KvNote LuaEnd (Fin T)}
    (hrun : run (sharedStep mapServe) (.start m clients) es = some y)
    (hends : ∀ t, returned (y.thread t).left = true) :
  HoldsIndex items value y.state
  := by
  choose batches hload hsizes hflatten using
    fun t : Fin T => indexLoad_spec hb value hitems t.isLt
  choose hplain heq using fun t : Fin T => hclients t _ (hload t)
  obtain rfl : clients = fun t => (mputAll (batches t)).client (hplain t) := funext heq
  have hpairs : ∀ t, ∀ kv ∈ (batches t).flatten, IndexPair items value kv.1 kv.2 :=
    fun t => mem_indexLoad hb hitems t.isLt (hload t)
  have hwhole : ∀ t, ∀ kvs ∈ batches t, listCount kvs.length = kvs.length := by
    intro t kvs hkvs
    apply (listCount_eq_iff _).mpr
    exact lt_of_le_of_lt (hsizes t kvs hkvs).2 hfits
  obtain ⟨hstate, hthreads⟩ := run_ensures hrun hm fun t =>
    mputAll_ensures (hpairs t) (hwhole t) (hplain t) [] []
  have hops : ∀ t, (y.thread t).calls.map Prod.fst
      = (batches t).flatten.map fun kv => SlCall.put kv.1 kv.2 := by
    intro t
    obtain ⟨truthy, hdone⟩ := exists_done_of_returned (hends t)
    exact (hthreads t).now.2 _ hdone
  obtain ⟨log, hserved, hlog⟩ := exists_log hrun
  have hown : ∀ t, own t log = (y.thread t).calls := fun t => (hlog t).symm
  intro k v
  constructor
  · exact hstate k v
  · intro hkv
    apply lookup_of_served (fun k v v' hv hv' => hv.1.trans hv'.1.symm) hserved _ hkv
    · left
      obtain ⟨rfl, i, hi, rfl⟩ := hkv
      have ht : i % T < T := Nat.mod_lt i hT
      have hmem : SlCall.put (indexKey i) v ∈ (own ⟨i % T, ht⟩ log).map Prod.fst := by
        rw [hown, hops, hflatten, List.map_map]
        exact List.mem_map.mpr ⟨i, (mem_stripe ht).mpr ⟨i, rfl, hi, rfl⟩, rfl⟩
      obtain ⟨c, hc, hput⟩ := List.mem_map.mp hmem
      rw [← hput]
      exact List.mem_map_of_mem (List.mem_map_of_mem (mem_own.mp hc))
    · intro c hc
      obtain ⟨t, hmem⟩ := mem_map_snd.mp hc
      rw [hown] at hmem
      have hput := List.mem_map_of_mem (f := Prod.fst) hmem
      rw [hops] at hput
      obtain ⟨kv, hkv, hput⟩ := List.mem_map.mp hput
      exact ⟨kv.1, kv.2, hput.symm, hpairs t kv hkv⟩

/-! ## Workers -/

/-- No lookup was noted as a miss or as an error. -/
def AllFound (notes : List KvNote) : Prop :=
  ∀ e ∈ notes, e ≠ .stats .miss ∧ e ≠ .stats .error

/-- A verb whose lookups all hit. -/
theorem AllFound.append {notes : List KvNote} (h : AllFound notes) {v : VerbCalls} {ns : UInt64}
    {as : List SlAnswer} (hhits : ∃ n, v.found as = List.replicate n .hit) {es : List KvNote}
    (hes : es <+: v.notes ns as) :
  AllFound (notes ++ es)
  := by
  obtain ⟨n, hhits⟩ := hhits
  intro e he
  rcases List.mem_append.mp he with he | he
  · exact h e he
  · have hmem := hes.subset he
    rw [VerbCalls.notes, List.mem_append, List.mem_map] at hmem
    rcases hmem with ⟨e', he', rfl⟩ | hmade
    · rw [VerbCalls.events, List.mem_cons, List.mem_cons] at he'
      rcases he' with rfl | rfl | he'
      · simp
      · simp
      · rw [hhits] at he'
        rw [List.eq_of_mem_replicate he']
        simp
    · rw [List.mem_singleton.mp hmade]
      simp

/-- Lookups that all hit. -/
theorem found_eq_hits {ops : List SlCall} {as : List SlAnswer}
    (h : List.Forall₂ (fun _ a => foundEvent a.code.1 = .hit) ops as) :
  as.map (fun a => foundEvent a.code.1) = List.replicate ops.length .hit
  := by
  induction h with
  | nil => rfl
  | cons ha _ ih => exact congrArg₂ List.cons ha ih

/-- Recorded hits. -/
theorem foldl_hits (n : ℕ) (stats : OpStats) :
  (List.replicate n StatsEvent.hit).foldl statsRecord stats
    = { stats with getHits := stats.getHits + n }
  := by
  have h := foldl_record_hits n (⟨(), stats⟩ : Worker Unit)
  rwa [foldl_record] at h

section Workers

variable {G : Type} {rng : LuaRandom G} {hot : ℤ → G → ℤ × G} {items : ℤ}

/-- The workers of batch on a full index: every lookup hits, and at the end all calls are made and
counted. -/
theorem batch_ensures {b : ℕ} (hb : 1 ≤ b) (hfits : b < 2 ^ 31) (hitems : 1 ≤ items) (calls : ℕ)
    {n : ℕ} {st : WorkloadState G} (hst : (Workload.batch b).Bounded st)
    (hplain : (workerProg (fun st => (Workload.batch b).run rng hot items st) n st).Plain)
    (made : List (SlCall × SlAnswer)) {notes : List KvNote} (hfound : AllFound notes)
    (hcounts : BatchCounts b (noted notes)) (hcalls : n + (noted notes).made.length = calls) :
  ((workerProg (fun st => (Workload.batch b).run rng hot items st) n st).client hplain).Ensures
    mapServe (HoldsIndex items indexValue) AllFound
    (fun _ notes r => r = .returned false ∧ BatchCounts b (noted notes) ∧
      (noted notes).made.length = calls) made notes
  := by
  induction n generalizing st made notes with
  | zero =>
    apply Client.Ensures.done hfound
    exact ⟨rfl, hcounts, by omega⟩
  | succ n ih =>
    obtain ⟨prog, st', hrun⟩ : ∃ prog st', (Workload.batch b).run rng hot items st
        = some (prog, st') := exists_run_batch hitems hb st
    obtain ⟨hcall, hst'⟩ := (Workload.batch b).run_call hst hrun
    have hprog : workerProg (fun st => (Workload.batch b).run rng hot items st) (n + 1) st
        = prog.andThen (workerProg (fun st => (Workload.batch b).run rng hot items st) n st') := by
      rw [workerProg, hrun]
    have hrest := ih hst'
    revert hplain
    rw [hprog]
    generalize workerProg (fun st => (Workload.batch b).run rng hot items st) n st' = rest
      at hrest ⊢
    intro hplain
    cases hcall with
    | mget js hjs hall =>
      rw [Int.toNat_natCast] at hjs
      have hlen : (js.map fun j : ℕ => indexKey j).length = b := by rw [List.length_map, hjs]
      have hv := verbCalls_mget (js.map fun j : ℕ => indexKey j) (by
        rw [hlen]
        exact (listCount_eq_iff b).mpr hfits)
      rw [hlen] at hv
      apply callOnce_ensures (P := fun _ a => foundEvent a.code.1 = .hit) hv hplain
        (fun as => by simp) hfound
      · intro call hcall m hm
        obtain ⟨k, hk, rfl⟩ := List.mem_map.mp hcall
        obtain ⟨j, hj, rfl⟩ := List.mem_map.mp hk
        use hm
        rw [(answer_get m _).1, (hm _ _).mpr ⟨rfl, j, hall j hj, rfl⟩]
        rfl
      · exact fun ns as has es hes => hfound.append ⟨_, found_eq_hits has⟩ hes
      · intro ns as has hplain'
        have hhits := found_eq_hits has
        rw [List.length_map, hlen] at hhits
        apply hrest hplain' _ (hfound.append ⟨_, hhits⟩ List.prefix_rfl)
        · rw [noted_append]
          apply hcounts.add (.inl rfl) rfl
          all_goals simp only [VerbCalls.events, hhits, List.foldl_cons, foldl_hits, statsRecord,
            if_true]
        · rw [noted_append, List.length_append, List.length_singleton]
          omega
    | mput js hjs hall =>
      rw [Int.toNat_natCast] at hjs
      have hlen : (js.map fun j : ℕ => (indexKey j, indexValue)).length = b := by
        rw [List.length_map, hjs]
      have hv := verbCalls_mput (js.map fun j : ℕ => (indexKey j, indexValue)) (by
        rw [hlen]
        exact (listCount_eq_iff b).mpr hfits)
      rw [hlen] at hv
      apply callOnce_ensures (P := fun _ _ => True) hv hplain (fun as => by simp) hfound
      · intro call hcall m hm
        obtain ⟨kv, hkv, rfl⟩ := List.mem_map.mp hcall
        obtain ⟨j, hj, rfl⟩ := List.mem_map.mp hkv
        have hpair : ∀ kv ∈ [(indexKey (j : ℕ), indexValue)],
            IndexPair items indexValue kv.1 kv.2 := by
          intro kv hkv
          rw [List.mem_singleton.mp hkv]
          exact ⟨rfl, j, hall j hj, rfl⟩
        have hsame : (SlCall.put (indexKey (j : ℕ)) indexValue).apply m = m := hm.putbatch hpair
        rw [hsame]
        exact ⟨hm, trivial⟩
      · exact fun ns as has es hes => hfound.append ⟨0, rfl⟩ hes
      · intro ns as has hplain'
        apply hrest hplain' _ (hfound.append ⟨0, rfl⟩ List.prefix_rfl)
        · rw [noted_append]
          apply hcounts.add (.inr rfl) rfl
          all_goals simp only [VerbCalls.events, List.foldl_cons, List.foldl_nil, statsRecord,
            reduceCtorEq, if_false, Nat.add_zero]
        · rw [noted_append, List.length_append, List.length_singleton]
          omega

/-- The range of a call and its answer are those of a whole window of indices below `items`. -/
def WindowRead (items : ℤ) (c : SlCall × SlAnswer) : Prop :=
  ∃ (start : ℕ) (cb : List (Bytes × Bytes) → Bytes → Bytes → ℤ),
    start + scanCount items ≤ items ∧
    c.1 = .range (indexKey start) (indexKey (start + scanRunWindow)) 0 cb ∧
    c.2 = .rows (scanCount items) (indexRows indexValue start (scanCount items))

/-- A scan of a window whose callback passes all rows. -/
theorem windowRead_answer {m : Contents} (hm : HoldsIndex items indexValue m) (hitems : 1 ≤ items)
    (hwidth : items + scanRunWindow ≤ 10 ^ 12) {start : ℕ}
    (hstart : (start : ℤ) ≤ max 0 (items - scanRunWindow))
    {cb : List (Bytes × Bytes) → Bytes → Bytes → ℤ} (hcb : ∀ seen k v, cb seen k v = 0) :
  WindowRead items (.range (indexKey start) (indexKey (start + scanRunWindow)) 0 cb,
    (SlCall.range (indexKey start) (indexKey (start + scanRunWindow)) 0 cb).answer m)
  := by
  obtain ⟨hall, hslice⟩ := hm.slice_window hitems hwidth hstart
  obtain rfl : cb = fun _ _ _ => 0 := by
    funext seen k v
    apply hcb
  refine ⟨start, _, hall, rfl, ?_⟩
  have hleading : leading 0 (m.slice (indexKey start) (indexKey (start + scanRunWindow)))
      = indexRows indexValue start (scanCount items) := by
    rw [leading, if_pos le_rfl, hslice]
  have hpasses : ∀ rows seen, Passes (remember fun _ _ _ => 0) rows seen := by
    intro rows
    induction rows with
    | nil => exact fun _ => trivial
    | cons row rows ih => exact fun seen => ⟨rfl, ih _⟩
  rw [SlCall.answer, hleading]
  dsimp only
  rw [passed_of_passes _ _ _ (hpasses _ _), indexRows, List.length_map, List.length_range]
  exact congrArg (SlAnswer.rows _) (scan_collectCb _ [])

/-- The workers of scan on a full index: every call reads a whole window, and at the end all calls
are made. -/
theorem scan_ensures (hitems : 1 ≤ items) (hwidth : items + scanRunWindow ≤ 10 ^ 12) (calls : ℕ)
    {n : ℕ} {st : WorkloadState G}
    (hplain : (workerProg (fun st => Workload.scan.run rng hot items st) n st).Plain)
    {made : List (SlCall × SlAnswer)} (notes : List KvNote) (hmade : ∀ c ∈ made, WindowRead items c)
    (hcalls : n + made.length = calls) :
  ((workerProg (fun st => Workload.scan.run rng hot items st) n st).client hplain).Ensures
    mapServe (HoldsIndex items indexValue) (fun _ => True)
    (fun made _ r => r = .returned false ∧ made.length = calls ∧ ∀ c ∈ made, WindowRead items c)
    made notes
  := by
  induction n generalizing st made notes with
  | zero =>
    apply Client.Ensures.done trivial
    exact ⟨rfl, by omega, hmade⟩
  | succ n ih =>
    obtain ⟨prog, st', hrun⟩ : ∃ prog st', Workload.scan.run rng hot items st = some (prog, st') :=
      exists_run_scan hitems st
    obtain ⟨hcall, -⟩ := Workload.scan.run_call trivial hrun
    have hprog : workerProg (fun st => Workload.scan.run rng hot items st) (n + 1) st
        = prog.andThen (workerProg (fun st => Workload.scan.run rng hot items st) n st') := by
      rw [workerProg, hrun]
    have hrest := fun hplain made => @ih st' hplain made
    revert hplain
    rw [hprog]
    generalize workerProg (fun st => Workload.scan.run rng hot items st) n st' = rest at hrest ⊢
    cases hcall with
    | scan start _ hstart =>
      rw [scanOnce, LuaProg.andThen]
      intro hplain
      rw [LuaProg.client]
      split
      · rename_i hargs
        cases hargs
      · rename_i lo hi limit hargs
        obtain ⟨rfl, rfl, rfl⟩ := Option.some.inj hargs
        apply Client.Ensures.bind
        apply VerbCalls.client_ensures (P := fun call a => WindowRead items (call, a)) trivial
        · intro call hmem m hm
          rw [List.mem_singleton.mp hmem]
          use hm
          exact windowRead_answer hm hitems hwidth hstart fun _ _ _ => rfl
        · exact fun _ _ _ _ _ => trivial
        · intro ns as has
          cases has with
          | @cons _ a _ _ ha has =>
            cases has
            obtain ⟨k, hk⟩ := scanCalls_answer (indexKey start) (indexKey (start + scanRunWindow)) 0
              (fun k v => (LuaProg.ret false).ending.get (hplain.1 k v))
              (fun k v => (LuaProg.Sound.ret false).ending_ne (hplain.1 k v)) [a]
            apply ensures_congr (by rw [hk, if_neg (by simp)])
            intro hplain'
            apply hrest hplain'
            · intro c hc
              rcases List.mem_append.mp hc with hc | hc
              · apply hmade c hc
              · rw [List.mem_singleton.mp hc]
                exact ha
            · rw [List.length_append]
              change n + (made.length + 1) = calls
              omega

variable {R : Type} {rand : R → ℕ × R} (hrand : ∀ r, 0 < (rand r).1 ∧ (rand r).1 ≤ slMaxLevel)

include hrand

/-- A measurement whose loaders load an index, on one skiplist that held values of the index only:
the workers start on a full index, and they call, are answered and note what they do on its map. -/
theorem exists_filled_run (hitems : 1 ≤ items) {T N : ℕ} (hT : 1 ≤ T) {W : Workload}
    (hW : ∀ thread threads g, W.load rng items thread threads g
      = indexLoad 512 indexValue items thread threads)
    {workers : Fin N → KvClient} {g : Fin T → G} {s : Skiplist R} {m : Contents}
    (hholds : SlHolds s m) (hm : HoldsOnly (IndexPair items indexValue) m)
    {es : List (Fin T × LockTurn UInt64)} {fs : List (Fin N × LockTurn UInt64)} {fuel : ℕ}
    (hfuel : m.entries.length + es.countP (fun e => e.2.isCall)
      + fs.countP (fun e => e.2.isCall) + 1 < fuel)
    {x : SharedThreads R (Fin N)}
    (hrun : sharedMeasure rand fuel (W.loaders rng items g) workers es fs s = some x) :
  ∃ m' y, HoldsIndex items indexValue m' ∧
    run (sharedStep mapServe) (.start m' workers) (fs.flatMap fun e => e.2.turns e.1) = some y ∧
    x.thread = y.thread ∧ ((∀ n, x.config.phase n = .idle) → SlHolds x.config.state y.state)
  := by
  obtain ⟨z, hz, hrun⟩ := Option.bind_eq_some_iff.mp hrun
  split_ifs at hrun with hends
  have hload : m.entries.length + es.countP (fun e => e.2.isCall) + 1 < fuel := by omega
  obtain ⟨y, hy, hthread, hholds', hsize⟩ := exists_map_of_returned hrand hholds hz hload hends
  have hfilled : HoldsIndex items indexValue y.state := by
    apply shared_fill (b := 512) (by norm_num) (by norm_num) hitems hT _ hm hy
    · intro t
      rw [← hthread]
      apply hends t
    · intro t batches hbatches
      have hloader : W.loader rng items t T (g t) = mputAll batches := by
        rw [Workload.loader, hW, hbatches]
      rw [Workload.loaders]
      use mputAll_plain batches
      congr
  have hwork : y.state.entries.length + fs.countP (fun e => e.2.isCall) + 1 < fuel := by omega
  obtain ⟨y', hrun', hthread', -, hquiet, -⟩ := lockedClients_spec hrand hholds' hrun hwork
  exact ⟨y.state, y', hfilled, hrun', hthread', hquiet⟩

/-- A measurement of batch on one skiplist that held values of the index only, in any interleaving
of the accesses: while no thread is in a call the skiplist holds the value of each index, no worker
has noted a miss or an error, and a worker that has ended has returned and has made all its calls,
each with `b` keys. -/
theorem sharedMeasure_batch {b : ℕ} (hb : 1 ≤ b) (hfits : b < 2 ^ 31) (hitems : 1 ≤ items) {T N : ℕ}
    (hT : 1 ≤ T) {calls : Fin N → ℕ} {g : Fin T → G} {h : Fin N → G} {s : Skiplist R}
    {m : Contents} (hholds : SlHolds s m) (hm : HoldsOnly (IndexPair items indexValue) m)
    {es : List (Fin T × LockTurn UInt64)} {fs : List (Fin N × LockTurn UInt64)} {fuel : ℕ}
    (hfuel : m.entries.length + es.countP (fun e => e.2.isCall)
      + fs.countP (fun e => e.2.isCall) + 1 < fuel)
    {x : SharedThreads R (Fin N)}
    (hrun : sharedMeasure rand fuel ((Workload.batch b).loaders rng items g)
      ((Workload.batch b).workers rng hot items calls h) es fs s = some x) :
  ((∀ n, x.config.phase n = .idle) →
      ∃ m', SlHolds x.config.state m' ∧ HoldsIndex items indexValue m') ∧
    ∀ n, AllFound (x.thread n).notes ∧ ∀ r, (x.thread n).left = .done r →
      r = .returned false ∧ BatchCounts b (noted (x.thread n).notes) ∧
        (noted (x.thread n).notes).made.length = calls n
  := by
  obtain ⟨m', y, hm', hy, hthread, hquiet⟩ := exists_filled_run hrand hitems hT
    (W := .batch b) (fun _ _ _ => rfl) hholds hm hfuel hrun
  obtain ⟨hstate, hthreads⟩ := run_ensures hy hm' fun n =>
    batch_ensures hb hfits hitems (calls n) ⟨Nat.zero_le _, Nat.zero_le _⟩
      (worker_plain rng hot items (.batch b) (calls n) (h n)) []
      (List.forall_mem_nil _) ⟨List.forall_mem_nil _, rfl, rfl, rfl, rfl⟩ rfl
  rw [hthread]
  exact ⟨fun hidle => ⟨y.state, hquiet hidle, hstate⟩, fun n => (hthreads n).now⟩

/-- A measurement of scan on one skiplist that held values of the index only, in any interleaving of
the accesses: while no thread is in a call the skiplist holds the value of each index, and a worker
that has ended has returned and has made all its calls, each a range that read a whole window. -/
theorem sharedMeasure_scan (hitems : 1 ≤ items) (hwidth : items + scanRunWindow ≤ 10 ^ 12) {T N : ℕ}
    (hT : 1 ≤ T) {calls : Fin N → ℕ} {g : Fin T → G} {h : Fin N → G} {s : Skiplist R}
    {m : Contents} (hholds : SlHolds s m) (hm : HoldsOnly (IndexPair items indexValue) m)
    {es : List (Fin T × LockTurn UInt64)} {fs : List (Fin N × LockTurn UInt64)} {fuel : ℕ}
    (hfuel : m.entries.length + es.countP (fun e => e.2.isCall)
      + fs.countP (fun e => e.2.isCall) + 1 < fuel)
    {x : SharedThreads R (Fin N)}
    (hrun : sharedMeasure rand fuel (Workload.scan.loaders rng items g)
      (Workload.scan.workers rng hot items calls h) es fs s = some x) :
  ((∀ n, x.config.phase n = .idle) →
      ∃ m', SlHolds x.config.state m' ∧ HoldsIndex items indexValue m') ∧
    ∀ n r, (x.thread n).left = .done r →
      r = .returned false ∧ (x.thread n).calls.length = calls n ∧
        ∀ c ∈ (x.thread n).calls, WindowRead items c
  := by
  obtain ⟨m', y, hm', hy, hthread, hquiet⟩ := exists_filled_run hrand hitems hT
    (W := .scan) (fun _ _ _ => rfl) hholds hm hfuel hrun
  obtain ⟨hstate, hthreads⟩ := run_ensures hy hm' fun n =>
    scan_ensures hitems hwidth (calls n) (worker_plain rng hot items .scan (calls n) (h n)) []
      (List.forall_mem_nil _) rfl
  rw [hthread]
  exact ⟨fun hidle => ⟨y.state, hquiet hidle, hstate⟩, fun n => (hthreads n).now.2⟩

end Workers

/-- Turns of two workers, of two reads and of two writes: each write comes after a read. -/
def readsAndWrites {ι : Type} (t u : ι) : List (ι × LockTurn UInt64) :=
  [[(u, .own (.input 7)), (t, .own (.input 8)), (t, .call), (t, .enter), (u, .call)],
    untilLeft t 13, [(u, .enter), (t, .call)], untilLeft u 19, [(t, .enter), (u, .call)],
    untilLeft t 13, [(u, .enter), (t, .own (.input 9)), (t, .own .note)], untilLeft u 19,
    [(u, .own (.input 10))], (List.replicate 3 [(t, .own .note), (u, .own .note)]).flatten,
    [(t, .own .note)]].flatten

/-- A measurement of batch with three indices by two loaders and two workers: one has read a batch,
the other has written one. -/
theorem sharedMeasure_batch_example :
  ∃ x : SharedThreads UInt64 (Fin 2),
    sharedMeasure randLevel 12 ((Workload.batch (2 : ℕ)).loaders steadyRandom 3 fun _ : Fin 2 => 0)
        ((Workload.batch (2 : ℕ)).workers steadyRandom (fun _ g => (0, g)) 3 (fun _ => 1)
          fun n => 70 * n.val.toUInt32)
        (twoLoaded 0 1) (readsAndWrites 0 1) (skiplistBackendOpen 1) = some x ∧
      (∃ m, SlHolds x.config.state m ∧ HoldsIndex 3 indexValue m) ∧
      ∀ n, BatchCounts 2 (noted (x.thread n).notes) ∧ (noted (x.thread n).notes).made.length = 1
  := by
  have hends : (sharedMeasure randLevel 12
        ((Workload.batch (2 : ℕ)).loaders steadyRandom 3 fun _ : Fin 2 => 0)
        ((Workload.batch (2 : ℕ)).workers steadyRandom (fun _ g => (0, g)) 3 (fun _ => 1)
          fun n => 70 * n.val.toUInt32)
        (twoLoaded 0 1) (readsAndWrites 0 1) (skiplistBackendOpen 1)).map
      (fun x => (returned (x.thread (0 : Fin 2)).left, returned (x.thread 1).left))
      = some (true, true) := rfl
  obtain ⟨x, hrun, hleft⟩ := Option.map_eq_some_iff.mp hends
  have hreturned := returned_of_both hleft
  obtain ⟨hstate, hthreads⟩ := sharedMeasure_batch randLevel_height (by decide) (by decide)
    (by decide) (by decide) (SlHolds.open _) .empty (by decide) hrun
  refine ⟨x, hrun, hstate fun n => idle_of_sharedMeasure hrun (hreturned n), ?_⟩
  intro n
  obtain ⟨truthy, hdone⟩ := exists_done_of_returned (hreturned n)
  exact ((hthreads n).2 _ hdone).2

/-- Turns of two workers whose ranges hold the lock together, an access of each in turn. -/
def readTogether {ι : Type} (t u : ι) (accesses : ℕ) : List (ι × LockTurn UInt64) :=
  [[(u, .own (.input 7)), (t, .own (.input 8)), (t, .call), (u, .call), (t, .enter), (u, .enter)],
    (List.replicate accesses [(t, .access), (u, .access)]).flatten,
    [(u, .leave), (t, .leave), (t, .own (.input 9)), (u, .own (.input 10))],
    (List.replicate 3 [(t, .own .note), (u, .own .note)]).flatten].flatten

/-- A measurement of scan with three indices by two loaders and two workers, which read their
windows together. -/
theorem sharedMeasure_scan_example :
  ∃ x : SharedThreads UInt64 (Fin 2),
    sharedMeasure randLevel 12 (Workload.scan.loaders steadyRandom 3 fun _ : Fin 2 => 0)
        (Workload.scan.workers steadyRandom (fun _ g => (0, g)) 3 (fun _ => 1)
          fun n => 70 * n.val.toUInt32)
        (twoLoaded 0 1) (readTogether 0 1 20) (skiplistBackendOpen 1) = some x ∧
      (∃ m, SlHolds x.config.state m ∧ HoldsIndex 3 indexValue m) ∧
      ∀ n, (x.thread n).calls.length = 1 ∧ ∀ c ∈ (x.thread n).calls, WindowRead 3 c
  := by
  have hends : (sharedMeasure randLevel 12
        (Workload.scan.loaders steadyRandom 3 fun _ : Fin 2 => 0)
        (Workload.scan.workers steadyRandom (fun _ g => (0, g)) 3 (fun _ => 1)
          fun n => 70 * n.val.toUInt32)
        (twoLoaded 0 1) (readTogether 0 1 20) (skiplistBackendOpen 1)).map
      (fun x => (returned (x.thread (0 : Fin 2)).left, returned (x.thread 1).left))
      = some (true, true) := rfl
  obtain ⟨x, hrun, hleft⟩ := Option.map_eq_some_iff.mp hends
  have hreturned := returned_of_both hleft
  obtain ⟨hstate, hthreads⟩ := sharedMeasure_scan randLevel_height (by decide) (by decide)
    (by decide) (SlHolds.open _) .empty (by decide) hrun
  refine ⟨x, hrun, hstate fun n => idle_of_sharedMeasure hrun (hreturned n), ?_⟩
  intro n
  obtain ⟨truthy, hdone⟩ := exists_done_of_returned (hreturned n)
  exact (hthreads n _ hdone).2

end Keybench
