import Keybench.Kv.Counters
import Keybench.Kv.Lists
import Keybench.Lib.Interleave
import Keybench.Workload.Index

/-!
# Seeding a store by index

The workloads mixed, scan, batch and valsize load a store alike: each thread goes through the
indices it owns with a stride, writes their keys into a buffer that it uses again and again, and
hands the buffer to `kv.mput` when it is full.  The threads together write each index once
(`stripes_perm`), so that the store holds the values of all indices when they are done
(`load_seedsIndex`).
-/

namespace Keybench

/-! ## The load functions -/

/-- `buf`, which has room for a batch, with `n` keys of the next batch, and the batches handed to
`kv_mput`. -/
structure IndexBuffer where
  /-- The pairs of `buf`. -/
  buf : List (Bytes × Bytes)
  /-- `n`. -/
  n : ℕ
  /-- The pairs of each batch. -/
  put : List (List (Bytes × Bytes))

/-- The buffer at the start: `b` pairs with the value. -/
def IndexBuffer.start (b : ℕ) (value : Bytes) : IndexBuffer where
  buf := List.replicate b ([], value)
  n := 0
  put := []

/-- The body of the loop of `load`: the key of the next pair is set, and a full buffer is handed
over. -/
def IndexBuffer.add (b : ℕ) (s : IndexBuffer) (i : ℤ) : Option IndexBuffer := do
  let k ← key i
  let buf := s.buf.modify s.n (fun e => (k, e.2))
  let n := s.n + 1
  if n = b then some { buf, n := 0, put := s.put ++ [buf] } else some { buf, n, put := s.put }

/-- The batches when the rest has been handed over. -/
def IndexBuffer.finish (s : IndexBuffer) : List (List (Bytes × Bytes)) :=
  if s.n > 0 then s.put ++ [s.buf.take s.n] else s.put

/-- `load` with batches of `b` pairs: the batches of a thread, or `none` when it raises an error,
which it does before the first batch. -/
def indexLoad (b : ℕ) (value : Bytes) (items thread threads : ℤ) :
    Option (List (List (Bytes × Bytes))) :=
  if items < 1 ∨ threads < 1 then none
  else do
    let s ← (luaFor thread (items - 1) threads).foldlM (IndexBuffer.add b) (.start b value)
    some s.finish

/-- `VALUE` of mixed, scan and batch, of `VALUE_BYTES` bytes. -/
def indexValue : Bytes := List.replicate 4096 (chr 'v')

/-- `value_for` of valsize. -/
def valueFor (sz : ℤ) : Option Bytes :=
  if sz < 1 then none else some (List.replicate sz.toNat (chr 'v'))

/-- `load` of mixed. -/
def mixedLoad (items thread threads : ℤ) : Option (List (List (Bytes × Bytes))) :=
  indexLoad 512 indexValue items thread threads

/-- `load` of scan. -/
def scanLoad (items thread threads : ℤ) : Option (List (List (Bytes × Bytes))) :=
  indexLoad 512 indexValue items thread threads

/-- `load` of batch. -/
def batchLoad (items thread threads : ℤ) : Option (List (List (Bytes × Bytes))) :=
  indexLoad 512 indexValue items thread threads

/-- `load` of valsize. -/
def valsizeLoad (valuebytes items thread threads : ℤ) : Option (List (List (Bytes × Bytes))) := do
  let value ← valueFor valuebytes
  indexLoad 64 value items thread threads

/-- A workload that is loaded by index. -/
inductive IndexWorkload
  | mixed | scan | batch
  /-- valsize with a size of the values that `value_for` accepts. -/
  | valsize (valuebytes : ℤ) (accepted : 1 ≤ valuebytes)

namespace IndexWorkload

/-- `load`. -/
def load : IndexWorkload → ℤ → ℤ → ℤ → Option (List (List (Bytes × Bytes)))
  | mixed => mixedLoad
  | scan => scanLoad
  | batch => batchLoad
  | valsize valuebytes _ => valsizeLoad valuebytes

/-- `SEED_BATCH`. -/
def seedBatch : IndexWorkload → ℕ
  | mixed | scan | batch => 512
  | valsize _ _ => 64

/-- The value of each key. -/
def value : IndexWorkload → Bytes
  | mixed | scan | batch => indexValue
  | valsize valuebytes _ => List.replicate valuebytes.toNat (chr 'v')

end IndexWorkload

/-! ## The calls of a thread -/

/-- The list of some pairs. -/
def luaPairList (kvs : List (Bytes × Bytes)) : LuaArg :=
  .table kvs.length
    (fun i => .table 0 (fun _ => .nil) (fun field =>
      if field = ascii "key" then .text (kvs.getD (i - 1) ([], [])).1 none
      else if field = ascii "val" then .text (kvs.getD (i - 1) ([], [])).2 none else .nil))
    (fun _ => .nil)

/-- `kv.mput` of each of some batches; an error ends the program. -/
def mputAll : List (List (Bytes × Bytes)) → LuaProg
  | [] => .ret false
  | kvs :: rest => .call .mput [luaPairList kvs] fun answer =>
    if answer = .raised then .raise else mputAll rest

/-- The writes of some batches. -/
def pairWrites (batches : List (List (Bytes × Bytes))) : List KvWrite :=
  batches.flatten.map fun kv => KvWrite.put kv.1 kv.2

/-! ## The buffer -/

/-- The pairs of a buffer, in order: those handed over, and those of the next batch. -/
def IndexBuffer.pairs (s : IndexBuffer) : List (Bytes × Bytes) := s.put.flatten ++ s.buf.take s.n

/-- A buffer of `b` pairs with the value, which is not full, and batches that are not empty and
have at most `b` pairs. -/
structure IndexBuffer.Ok (b : ℕ) (value : Bytes) (s : IndexBuffer) : Prop where
  length : s.buf.length = b
  values : ∀ e ∈ s.buf, e.2 = value
  room : s.n < b
  batches : ∀ kvs ∈ s.put, kvs ≠ [] ∧ kvs.length ≤ b

namespace IndexBuffer

variable {b : ℕ} {value : Bytes}

/-- The buffer at the start. -/
theorem ok_start (value : Bytes) (hb : 0 < b) :
  (start b value).Ok b value ∧ (start b value).pairs = []
  := by
  constructor
  · constructor
    · apply List.length_replicate
    · intro e he
      rw [List.eq_of_mem_replicate he]
    · apply hb
    · intro kvs hkvs
      cases hkvs
  · rfl

/-- Setting the key of a pair keeps the pairs before it. -/
theorem take_modify_key {buf : List (Bytes × Bytes)} {n : ℕ} (hn : n < buf.length)
    (hvalues : ∀ e ∈ buf, e.2 = value) (k : Bytes) :
  (buf.modify n (fun e => (k, e.2))).take (n + 1) = buf.take n ++ [(k, value)]
  := by
  have htake : (buf.take n).modify n (fun e => (k, e.2)) = buf.take n := by
    apply List.modify_eq_self
    rw [List.length_take]
    apply min_le_left
  rw [List.take_add_one, List.take_modify, htake, List.getElem?_modify_eq,
    List.getElem?_eq_getElem hn]
  simp [hvalues _ (List.getElem_mem hn)]

/-- One step of the loop adds a pair. -/
theorem Ok.add {s : IndexBuffer} (h : s.Ok b value) {i : ℤ} (hi : 0 ≤ i) :
  ∃ s', s.add b i = some s' ∧ s'.Ok b value ∧ s'.pairs = s.pairs ++ [(indexKey i, value)]
  := by
  have hn : s.n < s.buf.length := h.length ▸ h.room
  have htake := take_modify_key hn h.values (indexKey i)
  have hlen : (s.buf.modify s.n (fun e => (indexKey i, e.2))).length = b := by
    rw [List.length_modify, h.length]
  have hvalues : ∀ e ∈ s.buf.modify s.n (fun e => (indexKey i, e.2)), e.2 = value := by
    intro e he
    obtain ⟨j, hj, rfl⟩ := List.getElem_of_mem he
    rw [List.getElem_modify]
    split_ifs
    · apply h.values _ (List.getElem_mem _)
    · apply h.values _ (List.getElem_mem _)
  rw [IndexBuffer.add, key_of_nonneg hi, Option.bind_eq_bind, Option.bind_some]
  dsimp only
  split_ifs with hfull
  · -- the batch is full, and all its pairs have been set
    rw [hfull, List.take_of_length_le hlen.le] at htake
    refine ⟨_, rfl, ⟨hlen, hvalues, Nat.lt_of_le_of_lt (Nat.zero_le _) h.room, ?_⟩, ?_⟩
    · intro kvs hkvs
      rcases List.mem_append.mp hkvs with hkvs | hkvs
      · apply h.batches kvs hkvs
      · rw [List.mem_singleton.mp hkvs]
        constructor
        · rw [htake]
          simp
        · apply hlen.le
    · rw [pairs, pairs, htake]
      simp
  · refine ⟨_, rfl, ⟨hlen, hvalues, ?_, h.batches⟩, ?_⟩
    · apply lt_of_le_of_ne h.room hfull
    · rw [pairs, pairs, htake, List.append_assoc]

/-- The loop adds the pairs of the indices it goes through. -/
theorem foldlM_add {s : IndexBuffer} (h : s.Ok b value) {is : List ℤ} (his : ∀ i ∈ is, 0 ≤ i) :
  ∃ s', is.foldlM (IndexBuffer.add b) s = some s' ∧ s'.Ok b value
    ∧ s'.pairs = s.pairs ++ is.map (fun i => (indexKey i, value))
  := by
  induction is generalizing s with
  | nil => exact ⟨s, rfl, h, (List.append_nil _).symm⟩
  | cons i is ih =>
    obtain ⟨s₁, hadd, h₁, hpairs₁⟩ := h.add (his i List.mem_cons_self)
    obtain ⟨s', hrun, h', hpairs'⟩ := ih h₁ (fun j hj => his j (List.mem_cons_of_mem _ hj))
    use s'
    and_intros
    · rw [List.foldlM_cons, hadd]
      apply hrun
    · apply h'
    · rw [hpairs', hpairs₁, List.append_assoc, List.map_cons, List.singleton_append]

/-- The batches of a buffer are not empty, have at most `b` pairs, and hold its pairs. -/
theorem Ok.finish {s : IndexBuffer} (h : s.Ok b value) :
  (∀ kvs ∈ s.finish, kvs ≠ [] ∧ kvs.length ≤ b) ∧ s.finish.flatten = s.pairs
  := by
  rw [IndexBuffer.finish, pairs]
  split_ifs with hn
  · constructor
    · intro kvs hkvs
      rcases List.mem_append.mp hkvs with hkvs | hkvs
      · apply h.batches kvs hkvs
      · have hlen : (s.buf.take s.n).length = s.n := by
          rw [List.length_take, h.length, min_eq_left h.room.le]
        rw [List.mem_singleton.mp hkvs]
        constructor
        · rw [← List.length_pos_iff, hlen]
          apply hn
        · rw [hlen]
          apply h.room.le
    · simp
  · constructor
    · apply h.batches
    · rw [Nat.eq_zero_of_not_pos hn, List.take_zero, List.append_nil]

end IndexBuffer

/-! ## Stripes -/

/-- The indices of the thread `t` of `T`. -/
def stripe (items : ℤ) (T t : ℕ) : List ℤ := luaFor t (items - 1) T

/-- The indices that a thread owns. -/
theorem mem_stripe {items : ℤ} {T t : ℕ} (ht : t < T) {x : ℤ} :
  x ∈ stripe items T t ↔ ∃ i : ℕ, x = i ∧ i < items ∧ i % T = t
  := by
  have hT : 0 < T := by omega
  rw [stripe, List.mem_iff_getElem?]
  simp only [getElem?_luaFor (Int.natCast_pos.mpr hT)]
  constructor
  · rintro ⟨k, rfl, hle⟩
    refine ⟨t + k * T, by push_cast; rfl, by push_cast; omega, ?_⟩
    rw [Nat.add_mul_mod_self_right, Nat.mod_eq_of_lt ht]
  · rintro ⟨i, rfl, hlt, rfl⟩
    use i / T
    constructor
    · rw [mul_comm]
      exact_mod_cast (Nat.mod_add_div i T).symm
    · omega

/-- A thread goes through its indices once. -/
theorem nodup_stripe {items : ℤ} {T t : ℕ} (ht : t < T) :
  (stripe items T t).Nodup
  := by
  have hT : 0 < T := by omega
  rw [stripe, List.nodup_iff_injective_getElem]
  intro k l hkl
  have hk := (getElem?_luaFor (Int.natCast_pos.mpr hT) k.1 _).mp (List.getElem?_eq_getElem k.2)
  have hl := (getElem?_luaFor (Int.natCast_pos.mpr hT) l.1 _).mp (List.getElem?_eq_getElem l.2)
  dsimp only at hkl
  rw [hkl, hl.1] at hk
  have hmul : (l.1 : ℤ) * T = k.1 * T := by omega
  have hT' : (T : ℤ) ≠ 0 := by omega
  apply Fin.ext
  apply Int.ofNat_inj.mp (mul_right_cancel₀ hT' hmul).symm

/-- The indices of all threads are all indices. -/
theorem stripes_perm (items : ℤ) {T : ℕ} (hT : 1 ≤ T) :
  ((List.finRange T).flatMap fun t : Fin T => stripe items T t).Perm
    ((List.range items.toNat).map fun i : ℕ => (i : ℤ))
  := by
  rw [List.perm_ext_iff_of_nodup]
  · intro x
    rw [List.mem_flatMap, List.mem_map]
    constructor
    · rintro ⟨t, -, hx⟩
      obtain ⟨i, rfl, hlt, -⟩ := (mem_stripe t.isLt).mp hx
      exact ⟨i, List.mem_range.mpr (by omega), rfl⟩
    · rintro ⟨i, hi, rfl⟩
      rw [List.mem_range] at hi
      use ⟨i % T, Nat.mod_lt i hT⟩, List.mem_finRange _
      rw [mem_stripe (Nat.mod_lt i hT)]
      exact ⟨i, rfl, by omega, rfl⟩
  · rw [List.nodup_flatMap]
    constructor
    · intro t _
      apply nodup_stripe t.isLt
    · apply (List.nodup_finRange T).imp
      intro t u htu
      rw [Function.onFun, List.disjoint_left]
      intro x hxt hxu
      obtain ⟨i, rfl, -, hit⟩ := (mem_stripe t.isLt).mp hxt
      obtain ⟨j, hij, -, hju⟩ := (mem_stripe u.isLt).mp hxu
      obtain rfl : i = j := Int.ofNat_inj.mp hij
      apply htu
      apply Fin.ext
      rw [← hit, hju]
  · apply List.Nodup.map
    · intro i j hij
      apply Int.ofNat_inj.mp hij
    · apply List.nodup_range

/-! ## The loads -/

/-- What a thread hands over: batches of its indices. -/
theorem indexLoad_spec {b : ℕ} (hb : 0 < b) (value : Bytes) {items : ℤ} (hitems : 1 ≤ items)
    {T t : ℕ} (ht : t < T) :
  ∃ batches, indexLoad b value items t T = some batches ∧
    (∀ kvs ∈ batches, kvs ≠ [] ∧ kvs.length ≤ b) ∧
    batches.flatten = (stripe items T t).map fun i => (indexKey i, value)
  := by
  have hnonneg : ∀ i ∈ stripe items T t, 0 ≤ i := by
    intro x hx
    obtain ⟨i, rfl, -⟩ := (mem_stripe ht).mp hx
    apply Int.natCast_nonneg
  obtain ⟨hstart, hempty⟩ := IndexBuffer.ok_start value hb
  obtain ⟨s, hrun, hs, hpairs⟩ := IndexBuffer.foldlM_add hstart hnonneg
  use s.finish
  and_intros
  · rw [indexLoad, if_neg (by omega)]
    rw [stripe] at hrun
    rw [hrun]
    rfl
  · apply hs.finish.1
  · rw [hs.finish.2, hpairs, hempty, List.nil_append]

/-- What a thread of a workload hands over. -/
theorem IndexWorkload.load_spec (W : IndexWorkload) {items : ℤ} (hitems : 1 ≤ items) {T t : ℕ}
    (ht : t < T) :
  ∃ batches, W.load items t T = some batches ∧
    (∀ kvs ∈ batches, kvs ≠ [] ∧ kvs.length ≤ W.seedBatch) ∧
    batches.flatten = (stripe items T t).map fun i => (indexKey i, W.value)
  := by
  cases W with
  | valsize valuebytes accepted =>
    have hvalue : valueFor valuebytes = some (List.replicate valuebytes.toNat (chr 'v')) := by
      rw [valueFor, if_neg (not_lt.mpr accepted)]
    rw [load, valsizeLoad, hvalue]
    apply indexLoad_spec (by norm_num) _ hitems ht
  | _ => apply indexLoad_spec (by norm_num) indexValue hitems ht

/-- A verb reads whole batches. -/
theorem IndexWorkload.listCount_batch (W : IndexWorkload) {kvs : List (Bytes × Bytes)}
    (h : kvs.length ≤ W.seedBatch) :
  listCount kvs.length = kvs.length
  := by
  have hbatch : W.seedBatch ≤ 512 := by
    cases W <;> norm_num [seedBatch]
  apply (listCount_eq_iff _).mpr
  omega

/-- The list of some pairs is one. -/
theorem luaPairList_isPairs (kvs : List (Bytes × Bytes)) :
  IsPairs (luaPairList kvs) kvs
  := by
  refine ⟨_, _, rfl, ?_⟩
  intro i hi
  have hne : ascii "val" ≠ ascii "key" := by decide
  refine ⟨_, _, _, rfl, ?_, ?_⟩
  · simp [luaLChecklstring, hi]
  · simp [luaLChecklstring, hi, hne]

/-- What a call of `kv.mput` counts for. -/
theorem prims_made_mput (count : ℤ → ℕ) (len : ℤ) (geti : ℕ → LuaArg) (field : Bytes → LuaArg) :
  (KvVerb.mput.made [.table len geti field]).prims count = count len
  := rfl

/-- `kv.mput` of a list of pairs counts the pairs it reads, on every store. -/
theorem kvCall_mput_prims {S : Type} (api : KvStore S) {arg : LuaArg} {kvs : List (Bytes × Bytes)}
    (harg : IsPairs arg kvs) (w : Worker S) :
  ∃ w', kvCall api [arg] w .mput = some (.nothing, w') ∧
    w'.stats.primOps = w.stats.primOps + listCount kvs.length
  := by
  obtain ⟨geti, getfield, rfl, hgeti⟩ := harg
  obtain ⟨w', hcall⟩ : ∃ w', kvCall api [.table kvs.length geti getfield] w .mput
      = some (.nothing, w') := by
    have hread := luaPairs_take hgeti
    generalize hn : listCount kvs.length = n at hread
    simp only [kvCall, lMput, luaArg, List.getD_cons_zero, Nat.sub_self, hn, hread,
      Option.bind_eq_bind, Option.bind_some]
    exact ⟨_, rfl⟩
  use w', hcall
  rw [(kvCall_advances hcall).prims, prims_made_mput]

/-- A thread that hands over its batches counts their pairs, on every store. -/
theorem runLua_mputAll {S : Type} (api : KvStore S) {batches : List (List (Bytes × Bytes))}
    (hcount : ∀ kvs ∈ batches, listCount kvs.length = kvs.length) (r : LuaRun S) :
  (runLua api (mputAll batches) r).1 = .returned false ∧
    (runLua api (mputAll batches) r).2.worker.stats.primOps
      = r.worker.stats.primOps + batches.flatten.length
  := by
  induction batches generalizing r with
  | nil => exact ⟨rfl, rfl⟩
  | cons kvs rest ih =>
    obtain ⟨w', hcall, hprims⟩ := kvCall_mput_prims api (luaPairList_isPairs kvs) r.worker
    rw [hcount kvs List.mem_cons_self] at hprims
    obtain ⟨hend, hrest⟩ := ih (fun l hl => hcount l (List.mem_cons_of_mem _ hl))
      ⟨w', r.made ++ [KvVerb.mput.made [luaPairList kvs]]⟩
    rw [mputAll, runLua_call api hcall, if_neg (by simp)]
    constructor
    · apply hend
    · rw [hrest, hprims, List.flatten_cons, List.length_append, Nat.add_assoc]

/-! ## The load phase -/

/-- What the load of a workload by `T` threads does, which hand over the given batches. -/
structure SeedsIndex (W : IndexWorkload) (items : ℤ) (T : ℕ)
    (batches : Fin T → List (List (Bytes × Bytes))) : Prop where
  /-- Each thread hands over its batches. -/
  load : ∀ t : Fin T, W.load items t T = some (batches t)
  /-- A batch is not empty and has at most `SEED_BATCH` pairs. -/
  sizes : ∀ t, ∀ kvs ∈ batches t, kvs ≠ [] ∧ kvs.length ≤ W.seedBatch
  /-- The keys of all batches are those of the indices below `items`, each once. -/
  once : ((List.finRange T).flatMap fun t => (batches t).flatten.map Prod.fst).Perm
    ((List.range items.toNat).map fun i : ℕ => indexKey i)
  /-- In whatever order the writes of the threads come, an empty store holds the value of each
  index below `items`, and nothing else. -/
  contents : ∀ events : List (Fin T × KvWrite),
    (∀ t, Interleave.own t events = pairWrites (batches t)) →
    ∀ k v, (applyAll OrderedMap.empty (events.map Prod.snd)).lookup k = some v
      ↔ (∃ i : ℕ, i < items ∧ indexKey i = k) ∧ W.value = v
  /-- The threads end, and together they count `items` primitive operations, whatever the store
  answers. -/
  prims : ∀ (S : Type) (api : KvStore S) (stores : Fin T → S),
    (∀ t, (runLua api (mputAll (batches t)) ⟨⟨stores t, statsReset⟩, []⟩).1 = .returned false) ∧
    (∑ t, (runLua api (mputAll (batches t)) ⟨⟨stores t, statsReset⟩, []⟩).2.worker.stats.primOps
      : ℕ) = items

/-- The writes of the threads together are those of the indices below `items`. -/
theorem exists_keys {items : ℤ} {T : ℕ} (hT : 1 ≤ T) {value : Bytes}
    {batches : Fin T → List (List (Bytes × Bytes))} {events : List (Fin T × KvWrite)}
    (hflatten : ∀ t : Fin T,
      (batches t).flatten = (stripe items T t).map fun i => (indexKey i, value))
    (hown : ∀ t, Interleave.own t events = pairWrites (batches t)) :
  ∃ keys : List Bytes, events.map Prod.snd = keys.map (fun k => KvWrite.put k value) ∧
    ∀ k, k ∈ keys ↔ ∃ i : ℕ, i < items ∧ indexKey i = k
  := by
  have hmem : ∀ w, w ∈ events.map Prod.snd ↔
      ∃ i : ℕ, i < items ∧ KvWrite.put (indexKey i) value = w := by
    intro w
    rw [Interleave.mem_map_snd]
    simp only [hown, pairWrites, hflatten, List.map_map, List.mem_map, Function.comp_apply]
    constructor
    · rintro ⟨t, x, hx, rfl⟩
      obtain ⟨i, rfl, hlt, -⟩ := (mem_stripe t.isLt).mp hx
      exact ⟨i, hlt, rfl⟩
    · rintro ⟨i, hlt, rfl⟩
      refine ⟨⟨i % T, Nat.mod_lt i hT⟩, i, ?_, rfl⟩
      rw [mem_stripe (Nat.mod_lt i hT)]
      exact ⟨i, rfl, hlt, rfl⟩
  obtain ⟨keys, hkeys⟩ : events.map Prod.snd ∈
      Set.range (List.map fun k => KvWrite.put k value) := by
    rw [Set.range_list_map]
    intro w hw
    obtain ⟨i, -, rfl⟩ := (hmem w).mp hw
    use indexKey i
  use keys, hkeys.symm
  intro k
  have hput : k ∈ keys ↔ KvWrite.put k value ∈ events.map Prod.snd := by
    rw [← hkeys]
    simp
  rw [hput, hmem]
  simp only [KvWrite.put.injEq, and_true]

/-- Every number of threads loads the indices below `items`. -/
theorem load_seedsIndex (W : IndexWorkload) {items : ℤ} (hitems : 1 ≤ items) {T : ℕ}
    (hT : 1 ≤ T) :
  ∃ batches, SeedsIndex W items T batches
  := by
  choose batches hload hsizes hflatten using
    fun t : Fin T => W.load_spec hitems t.isLt
  use batches
  constructor
  · apply hload
  · apply hsizes
  · have hperm := (stripes_perm items hT).map indexKey
    rw [List.map_flatMap, List.map_map] at hperm
    simp only [hflatten, List.map_map]
    apply hperm
  · intro events hown k v
    obtain ⟨keys, hevents, hkeys⟩ := exists_keys hT hflatten hown
    rw [hevents, lookup_puts, hkeys]
  · intro S api stores
    have hcount : ∀ t, ∀ kvs ∈ batches t, listCount kvs.length = kvs.length :=
      fun t kvs hkvs => W.listCount_batch (hsizes t kvs hkvs).2
    constructor
    · intro t
      apply (runLua_mputAll api (hcount t) _).1
    · have hlen := (stripes_perm items hT).length_eq
      rw [List.length_flatMap, List.length_map, List.length_range] at hlen
      have hprims : ∀ t, (runLua api (mputAll (batches t))
          ⟨⟨stores t, statsReset⟩, []⟩).2.worker.stats.primOps = (stripe items T t).length := by
        intro t
        rw [(runLua_mputAll api (hcount t) _).2, hflatten, List.length_map]
        apply Nat.zero_add
      rw [Finset.sum_congr rfl (fun t _ => hprims t), Fin.sum_univ_def, hlen]
      omega

/-- Threads that hand their batches to a reliable engine, in any order, fill an empty store with the
indices below `items`. -/
theorem SeedsIndex.of_requests {W : IndexWorkload} {items : ℤ} {T : ℕ}
    {batches : Fin T → List (List (Bytes × Bytes))} (h : SeedsIndex W items T batches) {S : Type}
    {be : KvBackend S} {contents : S → Contents} (hr : be.Reliable contents) {s : S}
    (hs : contents s = OrderedMap.empty) {requests : List (Fin T × List (Bytes × Bytes))}
    (hown : ∀ t, Interleave.own t requests = batches t) (k v : Bytes) :
  (contents (storeRun be hr.settles s (requests.map fun x => .putbatch x.2))).lookup k = some v
    ↔ (∃ i : ℕ, i < items ∧ indexKey i = k) ∧ W.value = v
  := by
  have hwrites : (requests.map fun x => KvRequest.putbatch x.2).flatMap KvRequest.writes
      = (requests.flatMap fun x =>
        (x.2.map fun kv => KvWrite.put kv.1 kv.2).map fun w => (x.1, w)).map Prod.snd := by
    simp [List.flatMap_map, List.map_flatMap, KvRequest.writes, Function.comp_def]
  rw [hr.contents_storeRun, hs, hwrites]
  apply h.contents
  intro t
  rw [Interleave.own_flatMap, hown, pairWrites, List.map_flatten, List.flatMap]

/-- Two threads load three indices of valsize. -/
theorem load_seedsIndex_example :
  ∃ batches, SeedsIndex (.valsize 2 (by decide)) 3 2 batches
  := load_seedsIndex (.valsize 2 (by decide)) (by decide) (by decide)

end Keybench
