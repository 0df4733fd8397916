import Keybench.Workload.Measure

/-!
# What a measurement writes

Each workload has its pairs: mixed, scan and batch write their value under the keys of indices,
valsize a value of the size that is measured, and cart its value under lines of users.  Loaders and
workers put such pairs only, so in every interleaving a store that held such pairs only does at each
moment of the load and of the run (`measure_holdsOnly`).
-/

namespace Keybench

open Interleave

/-! ## Pairs -/

/-- The value under the key of an index below `items`. -/
def IndexPair (items : ℤ) (value k v : Bytes) : Prop :=
  v = value ∧ ∃ i : ℕ, (i : ℤ) < items ∧ indexKey i = k

/-- The pairs of a workload. -/
def Workload.Pair (items : ℤ) : Workload → Bytes → Bytes → Prop
  | .mixed | .scan | .batch _ => IndexPair items indexValue
  | .valsize valuebytes => fun k v =>
    ∃ value, valueFor valuebytes = some value ∧ IndexPair items value k v
  | .cart users => fun k v =>
    v = cartValue ∧ ∃ u i, 0 ≤ u ∧ u < users ∧ pickBase u items ≤ i ∧
      i < pickBase u items + cartW ∧ lineKey u i = k

/-! ## Programs that put pairs of a kind -/

section PutsOnly

variable {P : Bytes → Bytes → Prop}

/-- A call that puts pairs of the kind only, and whose answer is discarded. -/
theorem callOnce_putsOnly {verb : KvVerb} {args : List LuaArg}
    (h : ∀ k v, KvWrite.put k v ∈ verb.writes args → P k v) :
  (callOnce verb args).PutsOnly P
  := by
  apply LuaProg.PutsOnly.call h
  intro a
  split_ifs
  · exact .raise
  · exact .ret false

/-- Deletes put nothing. -/
theorem delAll_putsOnly (ks : List Bytes) :
  (delAll ks).PutsOnly P
  := by
  induction ks with
  | nil => exact .ret false
  | cons k ks ih =>
    apply LuaProg.PutsOnly.call
    · intro k' v h
      simp [KvVerb.writes, luaArg, luaString, luaLChecklstring] at h
    · intro a
      split_ifs
      · exact .raise
      · apply ih

/-- Reading the range of a user puts nothing. -/
theorem rangeOfUser_putsOnly (uid : ℤ) {next : List (Bytes × Bytes) → LuaProg}
    (h : ∀ rows, (next rows).PutsOnly P) :
  (rangeOfUser uid next).PutsOnly P
  := by
  rw [rangeOfUser]
  split
  · exact .raise
  · apply LuaProg.PutsOnly.call
    · intro k v h
      cases h
    · intro a
      split
      · apply h
      · exact .raise

/-- The writes of `kv.mput`. -/
theorem writes_mput {len : ℤ} {geti : ℕ → LuaArg} {getfield : Bytes → LuaArg}
    {kvs : List (Bytes × Bytes)} (h : luaPairs geti 0 (listCount len) = some kvs) :
  KvVerb.writes [.table len geti getfield] .mput = KvRequest.writes (.putbatch kvs)
  := by
  have harg : luaArg [.table len geti getfield] 1 = .table len geti getfield := rfl
  rw [KvVerb.writes, harg]
  simp only [h, Option.bind_eq_bind, Option.bind_some, Option.getD_some]

/-- The puts of `kv.mput` of some pairs are among them. -/
theorem mem_of_mem_writes_mput {arg : LuaArg} {kvs : List (Bytes × Bytes)} (harg : IsPairs arg kvs)
    {k v : Bytes} (h : KvWrite.put k v ∈ KvVerb.writes [arg] .mput) :
  (k, v) ∈ kvs
  := by
  obtain ⟨geti, getfield, rfl, hgeti⟩ := harg
  rw [writes_mput (luaPairs_take hgeti)] at h
  obtain ⟨⟨k', v'⟩, hmem, heq⟩ := List.mem_map.mp h
  cases heq
  apply List.mem_of_mem_take hmem

/-- Handing batches over. -/
theorem mputAll_putsOnly {batches : List (List (Bytes × Bytes))}
    (h : ∀ kv ∈ batches.flatten, P kv.1 kv.2) :
  (mputAll batches).PutsOnly P
  := by
  induction batches with
  | nil => exact .ret false
  | cons kvs rest ih =>
    rw [List.flatten_cons] at h
    apply LuaProg.PutsOnly.call
    · intro k v hmem
      exact h (k, v) (List.mem_append_left _ (mem_of_mem_writes_mput (luaPairList_isPairs kvs) hmem))
    · intro a
      split_ifs
      · exact .raise
      · apply ih
        intro kv hkv
        apply h kv (List.mem_append_right _ hkv)

/-- What holds of the pairs put holds of more pairs. -/
theorem LuaProg.PutsOnly.mono {Q : Bytes → Bytes → Prop} (hPQ : ∀ k v, P k v → Q k v)
    {prog : LuaProg} (h : prog.PutsOnly P) :
  prog.PutsOnly Q
  := by
  induction h with
  | ret truthy => exact .ret truthy
  | raise => exact .raise
  | call hputs hnext ih => exact .call (fun k v hmem => hPQ k v (hputs k v hmem)) ih
  | scan hfn hnext ihfn ihnext => exact .scan ihfn ihnext

end PutsOnly

/-! ## Loaders -/

/-- The pairs that a thread loads. -/
theorem mem_indexLoad {b : ℕ} (hb : 0 < b) {value : Bytes} {items : ℤ} (hitems : 1 ≤ items)
    {T t : ℕ} (ht : t < T) {batches : List (List (Bytes × Bytes))}
    (hload : indexLoad b value items t T = some batches) :
  ∀ kv ∈ batches.flatten, IndexPair items value kv.1 kv.2
  := by
  obtain ⟨batches', hload', -, hpairs⟩ := indexLoad_spec hb value hitems ht
  obtain rfl := Option.some.inj (hload.symm.trans hload')
  rw [hpairs]
  intro kv hkv
  obtain ⟨i, hi, rfl⟩ := List.mem_map.mp hkv
  obtain ⟨j, rfl, hlt, -⟩ := (mem_stripe ht).mp hi
  exact ⟨rfl, j, hlt, rfl⟩

section Workloads

variable {G : Type} {rng : LuaRandom G} {hot : ℤ → G → ℤ × G} {items : ℤ}

/-- A loader puts the pairs of its workload only. -/
theorem loader_putsOnly {W : Workload} (hW : W.Accepted items) {T t : ℕ} (ht : t < T) (g : G) :
  (W.loader rng items t T g).PutsOnly (W.Pair items)
  := by
  rw [Workload.loader]
  split
  · exact .raise
  · rename_i batches hload
    apply mputAll_putsOnly
    cases W with
    | mixed | scan => exact mem_indexLoad (by norm_num) hW ht hload
    | batch b => exact mem_indexLoad (by norm_num) hW.1 ht hload
    | valsize valuebytes =>
      obtain ⟨value, hvalue, hload⟩ := Option.bind_eq_some_iff.mp hload
      intro kv hkv
      exact ⟨value, hvalue, mem_indexLoad (by norm_num) hW.1 ht hload kv hkv⟩
    | cart users =>
      obtain ⟨lines, hlines, hload⟩ := Option.bind_eq_some_iff.mp hload
      obtain rfl := Option.some.inj hload
      intro kv hkv
      rw [← List.map_flatten] at hkv
      obtain ⟨k, hk, rfl⟩ := List.mem_map.mp hkv
      obtain ⟨u, i, hkey, ⟨hu, hu'⟩, hi, hi'⟩ := mem_cartLoad hW.2 hW.1 ht hlines hk
      exact ⟨rfl, u, i, hu, hu', hi, hi', hkey⟩

/-! ## Workers -/

/-- Such calls put pairs of the workload only. -/
theorem IndexCall.putsOnly {value : Option Bytes} {verb : KvVerb} {args : List LuaArg}
    (h : IndexCall value items verb args) :
  (callOnce verb args).PutsOnly fun k v => ∃ value', value = some value' ∧ IndexPair items value' k v
  := by
  apply callOnce_putsOnly
  intro k v hmem
  cases h with
  | put i v' hlt hvalue =>
    have hput : KvWrite.put k v = KvWrite.put (indexKey i) v' := List.mem_singleton.mp hmem
    cases hput
    exact ⟨v, hvalue, rfl, i, hlt, rfl⟩
  | del i hlt =>
    have hdel : KvWrite.put k v = KvWrite.del (indexKey i) := List.mem_singleton.mp hmem
    cases hdel
  | get i hlt => cases hmem
  | range start hlt hargs => cases hmem

/-- An operation of cart puts the line that it touches by id. -/
theorem CartOp.prog_putsOnly {P : Bytes → Bytes → Prop} {op : CartOp}
    (h : ∀ u i, op.line = some (u, i) → P (lineKey u i) cartValue) :
  op.prog.PutsOnly P
  := by
  cases op with
  | view uid => exact rangeOfUser_putsOnly uid fun _ => .ret false
  | checkout uid => exact rangeOfUser_putsOnly uid fun _ => delAll_putsOnly _
  | add uid iid | update uid iid =>
    apply callOnce_putsOnly
    intro k v hmem
    have hput : KvWrite.put k v = KvWrite.put (lineKey uid iid) cartValue :=
      List.mem_singleton.mp hmem
    cases hput
    exact h uid iid rfl
  | get uid iid =>
    apply callOnce_putsOnly
    intro k v hmem
    cases hmem
  | remove uid iid =>
    apply callOnce_putsOnly
    intro k v hmem
    have hdel : KvWrite.put k v = KvWrite.del (lineKey uid iid) := List.mem_singleton.mp hmem
    cases hdel

/-- A call of `run` puts the pairs of its workload only. -/
theorem Workload.Call.putsOnly {W : Workload} {prog : LuaProg} (h : W.Call items prog) :
  prog.PutsOnly (W.Pair items)
  := by
  cases h with
  | mixed hcall =>
    apply hcall.putsOnly.mono
    rintro k v ⟨value, hvalue, hpair⟩
    obtain rfl := Option.some.inj hvalue
    apply hpair
  | valsize hcall => apply hcall.putsOnly
  | scan start =>
    apply LuaProg.PutsOnly.scan (fun _ _ => .ret false)
    intro a
    split_ifs
    · exact .raise
    · exact .ret false
  | mget js =>
    apply callOnce_putsOnly
    intro k v hmem
    cases hmem
  | mput js hjs hitems =>
    apply callOnce_putsOnly
    intro k v hmem
    obtain ⟨j, hj, heq⟩ := List.mem_map.mp
      (mem_of_mem_writes_mput (luaPairList_isPairs _) hmem)
    cases heq
    exact ⟨rfl, j, hitems j hj, rfl⟩
  | cart op huser hline =>
    apply CartOp.prog_putsOnly
    intro u i hui
    obtain ⟨⟨hu, hu'⟩, hi, hi'⟩ := hline u i hui
    exact ⟨rfl, u, i, hu, hu', hi, hi', rfl⟩

/-- A worker puts the pairs of its workload only. -/
theorem worker_putsOnly {W : Workload} (n : ℕ) (g : G) :
  (W.worker rng hot items n g).PutsOnly (W.Pair items)
  := by
  apply worker_induct (.ret false) .raise (fun _ _ h h' => h.andThen h')
  exact fun _ hcall => hcall.putsOnly

variable (rng hot) in
/-- In every interleaving of loaders and then of workers, on any store that is a map, a store that
held pairs of the workload only does at each moment of the load and of the run. -/
theorem measure_holdsOnly {W : Workload} (hW : W.Accepted items) {S : Type} {api : KvStore S}
    {c : S → Contents} (hapi : api.IsMap c) {T N : ℕ} (calls : Fin N → ℕ) (g : Fin T → G)
    (h : Fin N → G) {s : S} (hs : HoldsOnly (W.Pair items) (c s)) :
  (∀ ts x, W.loading rng items api g ts s = some x → HoldsOnly (W.Pair items) (c x.store)) ∧
    ∀ ts us y, W.measure rng hot items api calls g h ts us s = some y →
      HoldsOnly (W.Pair items) (c y.store)
  := by
  have hload : ∀ ts x, W.loading rng items api g ts s = some x →
      HoldsOnly (W.Pair items) (c x.store) := by
    intro ts x hrun
    exact run_luaStep_holdsOnly hapi (fun t => loader_putsOnly hW t.isLt (g t)) hs hrun
  constructor
  · apply hload
  · intro ts us y hrun
    obtain ⟨x, hx, hrun⟩ := Option.bind_eq_some_iff.mp hrun
    split_ifs at hrun
    exact run_luaStep_holdsOnly hapi (fun n => worker_putsOnly (calls n) (h n)) (hload ts x hx) hrun

end Workloads

/-- A measurement of cart with two users by two loaders and two workers: after the first turn of the
load, and at the end. -/
theorem measure_holdsOnly_example :
  ∃ (x : LuaThreads Contents (Fin 2)) (y : LuaThreads Contents (Fin 2)),
    (Workload.cart 2).loading steadyRandom 20 mapStore (fun _ : Fin 2 => 0) [1]
      (OrderedMap.empty : Contents) = some x ∧
    HoldsOnly ((Workload.cart 2).Pair 20) x.store ∧
    (Workload.cart 2).measure steadyRandom (fun _ g => (0, g)) 20 mapStore (fun _ => 1)
      (fun _ : Fin 2 => 0) (fun n : Fin 2 => n.val.toUInt32) [1, 0] [1, 0]
      (OrderedMap.empty : Contents) = some y ∧
    HoldsOnly ((Workload.cart 2).Pair 20) y.store
  := by
  have hcart : (Workload.cart 2).Accepted 20 := ⟨by decide, by decide⟩
  obtain ⟨hload, hrun⟩ := measure_holdsOnly steadyRandom (fun _ g => (0, g)) hcart
    mapStore_isMap (fun _ => 1) (fun _ : Fin 2 => 0) (fun n : Fin 2 => n.val.toUInt32) .empty
  obtain ⟨x, hx⟩ : ∃ x, (Workload.cart 2).loading steadyRandom 20 mapStore (fun _ : Fin 2 => 0) [1]
      (OrderedMap.empty : Contents) = some x := ⟨_, rfl⟩
  obtain ⟨y, hy⟩ : ∃ y, (Workload.cart 2).measure steadyRandom (fun _ g => (0, g)) 20 mapStore
      (fun _ => 1) (fun _ : Fin 2 => 0) (fun n : Fin 2 => n.val.toUInt32) [1, 0] [1, 0]
      (OrderedMap.empty : Contents) = some y := ⟨_, rfl⟩
  exact ⟨x, y, hx, hload [1] x hx, hy, hrun [1, 0] [1, 0] y hy⟩

end Keybench
