import Keybench.Skiplist.Close
import Keybench.Workload.IndexLoad

/-!
# Threads that seed one skiplist

The skiplist takes no batches, so `store_putbatch` puts the pairs of a batch one after the other,
and the threads of a load phase come to `sl_put` access by access.  Whatever the interleaving,
the list holds the values of all indices when they are done, and `sl_stats` counts them
(`seedThreads_spec`).
-/

namespace Keybench

open Access Interleave RwLock

/-- The call of the skiplist that a write of one key makes. -/
def KvWrite.toCall : KvWrite → SlCall
  | .put k v => .put k v
  | .del k => .del k

/-- The write a call makes, if it makes one. -/
def SlCall.toWrite : SlCall → Option KvWrite
  | .put k v => some (.put k v)
  | .del k => some (.del k)
  | .get _ => none
  | .range _ _ _ _ => none

theorem toWrite_toCall (w : KvWrite) :
  w.toCall.toWrite = some w
  := by
  cases w <;> rfl

/-- The map some calls write is that of their writes. -/
theorem slContents_eq (calls : List SlCall) :
  slContents calls = applyAll OrderedMap.empty (calls.filterMap SlCall.toWrite)
  := by
  have hgo : ∀ (calls : List SlCall) (m : Contents),
      calls.foldl SlCall.apply m = applyAll m (calls.filterMap SlCall.toWrite) := by
    intro calls
    induction calls with
    | nil => exact fun m => rfl
    | cons call calls ih =>
      intro m
      rw [List.foldl_cons, ih]
      cases call <;> rfl
  apply hgo

/-- Puts answer zero. -/
theorem Answered.puts {c : Bytes → Option Bytes} {calls : List SlCall} {answers : List SlAnswer}
    (h : Answered c calls answers) (hputs : ∀ call ∈ calls, ∃ k v, call = .put k v) :
  ∀ answer ∈ answers, answer = .rc 0
  := by
  induction calls generalizing c answers with
  | nil =>
    obtain rfl : answers = [] := h
    intro answer hanswer
    cases hanswer
  | cons call calls ih =>
    obtain ⟨answer, rest, rfl, hanswer, hrest⟩ := h
    obtain ⟨k, v, rfl⟩ := hputs _ List.mem_cons_self
    intro a ha
    rcases List.mem_cons.mp ha with rfl | ha
    · apply hanswer
    · apply ih hrest (fun call hcall => hputs call (List.mem_cons_of_mem _ hcall)) a ha

/-- A store with the keys of the indices below `items` has as many keys. -/
theorem length_entries_of_index {m : Contents} {items : ℤ} (hitems : 1 ≤ items)
    (hkeys : ∀ k, (∃ v, m.lookup k = some v) ↔ ∃ i : ℕ, i < items ∧ indexKey i = k) :
  (m.entries.length : ℤ) = items
  := by
  have hnodup : (m.entries.map Prod.fst).Nodup := by
    apply List.Pairwise.map (R := fun e f : Bytes × Bytes => e.1 < f.1) Prod.fst
    · intro e f hlt
      apply ne_of_lt hlt
    · apply m.sorted
  have hperm : (m.entries.map Prod.fst).Perm ((List.range items.toNat).map fun i : ℕ => indexKey i)
      := by
    rw [List.perm_ext_iff_of_nodup hnodup
      (List.nodup_range.map fun i j hij => indexKey_injective hij)]
    intro k
    have hmem : k ∈ m.entries.map Prod.fst ↔ ∃ v, m.lookup k = some v := by
      simp only [List.mem_map, Prod.exists, exists_and_right, exists_eq_right,
        OrderedMap.lookup_eq_some_iff]
    rw [hmem, hkeys, List.mem_map]
    constructor
    · rintro ⟨i, hi, rfl⟩
      exact ⟨i, List.mem_range.mpr (by omega), rfl⟩
    · rintro ⟨i, hi, rfl⟩
      have hlt := List.mem_range.mp hi
      exact ⟨i, by omega, rfl⟩
  have hlen := hperm.length_eq
  rw [List.length_map, List.length_map, List.length_range] at hlen
  omega

/-- The events of a process, seen through a function. -/
theorem own_filterMap {ι ε ε' : Type} [DecidableEq ι] (f : ε → Option ε') (t : ι)
    (es : List (ι × ε)) :
  own t (es.filterMap fun x => (f x.2).map fun e => (x.1, e)) = (own t es).filterMap f
  := by
  induction es with
  | nil => rfl
  | cons x es ih =>
    obtain ⟨u, e⟩ := x
    rw [List.filterMap_cons]
    rcases eq_or_ne u t with rfl | hne
    · rw [own_cons_self, List.filterMap_cons, ← ih]
      cases f e with
      | none => rfl
      | some e' => apply own_cons_self
    · rw [own_cons_of_ne hne, ← ih]
      cases f e with
      | none => rfl
      | some e' => apply own_cons_of_ne hne

/-- Each of `T` threads loads its part of a workload into one new skiplist, in any interleaving
of the accesses of their puts.  When no thread is in a call any more, every put has answered
zero, the list holds the value of each index below `items` and nothing else, and its count is
`items`. -/
theorem seedThreads_spec (W : IndexWorkload) {items : ℤ} (hitems : 1 ≤ items) {T : ℕ}
    (hT : 1 ≤ T) :
  ∃ batches : Fin T → List (List (Bytes × Bytes)),
    (∀ t : Fin T, W.load items t T = some (batches t)) ∧
    ∀ (seed : UInt32) (fuel : ℕ) (es : List (Fin T × Action SlCall))
      (c : Config (Skiplist UInt64) SlCall SlAnswer (Fin T)),
      run (step (slObject randLevel fuel)) (start (skiplistBackendOpen seed)) es = some c →
      (calls (es.map Prod.snd)).length < fuel →
      (∀ t, calls (own t es) = (pairWrites (batches t)).map KvWrite.toCall) →
      (∀ t, c.phase t = .idle) →
      (∀ answer ∈ c.answers, answer = .rc 0) ∧
      (∃ m, SlHolds c.state m ∧ ∀ k v, m.lookup k = some v
        ↔ (∃ i : ℕ, i < items ∧ indexKey i = k) ∧ W.value = v) ∧
      c.state.count = items
  := by
  choose batches hload hsizes hflatten using fun t : Fin T => W.load_spec hitems t.isLt
  use batches, hload
  intro seed fuel es c hrun hfuel hcalls hidle
  have hown : ∀ t, (own t c.log).map Prod.fst = (pairWrites (batches t)).map KvWrite.toCall := by
    intro t
    have h := own_log hrun t
    rw [hidle t, hcalls] at h
    simpa [Phase.pending] using h
  -- The writes of the threads, in the order of the answers.
  let events : List (Fin T × KvWrite) :=
    c.log.filterMap fun x => (x.2.1.toWrite).map fun w => (x.1, w)
  have hevents : ∀ t, own t events = pairWrites (batches t) := by
    intro t
    have h : own t events = (own t c.log).filterMap fun x => x.1.toWrite :=
      own_filterMap (fun x : SlCall × SlAnswer => x.1.toWrite) t c.log
    have hmap : (own t c.log).filterMap (fun x => x.1.toWrite)
        = ((own t c.log).map Prod.fst).filterMap SlCall.toWrite := by
      rw [List.filterMap_map]
      rfl
    rw [h, hmap, hown t, List.filterMap_map]
    simp [toWrite_toCall]
  have hwrites : events.map Prod.snd = c.ops.filterMap SlCall.toWrite := by
    simp only [events, Config.ops, List.map_filterMap, List.filterMap_map, Option.map_map,
      Function.comp_def, Option.map_id']
  have hputs : ∀ call ∈ c.ops, ∃ k v, call = .put k v := by
    intro call hcall
    obtain ⟨⟨t, op, a⟩, hx, rfl⟩ := List.mem_map.mp hcall
    have hmem : op ∈ (own t c.log).map Prod.fst := List.mem_map_of_mem (mem_own.mpr hx)
    rw [hown t] at hmem
    obtain ⟨w, hw, rfl⟩ := List.mem_map.mp hmem
    obtain ⟨kv, -, rfl⟩ := List.mem_map.mp hw
    exact ⟨kv.1, kv.2, rfl⟩
  obtain ⟨s, h⟩ := reached_of_run hrun
  have hstate := h.state_of_idle hidle
  have hlen := ops_length_lt hrun hfuel
  obtain ⟨-, hholds⟩ := slAfter_of_serial randLevel_height hlen h.serial
  obtain ⟨answers, s', hserial, hanswered, -⟩ :=
    slObject_serial_spec randLevel_height (skiplistSeed seed) hlen
  obtain ⟨hanswers, -⟩ := Prod.mk.inj (Option.some.inj (h.serial.symm.trans hserial))
  rw [slContents_eq, ← hwrites] at hholds
  obtain ⟨keys, hkeysEvents, hkeys⟩ := exists_keys hT hflatten hevents
  have hlookup : ∀ k v, (applyAll OrderedMap.empty (events.map Prod.snd)).lookup k = some v
      ↔ (∃ i : ℕ, i < items ∧ indexKey i = k) ∧ W.value = v := by
    intro k v
    rw [hkeysEvents, lookup_puts, hkeys]
  and_intros
  · rw [hanswers]
    apply hanswered.puts hputs
  · rw [hstate]
    exact ⟨_, hholds, hlookup⟩
  · rw [hstate, hholds.count_level.1]
    apply length_entries_of_index hitems
    intro k
    simp only [hlookup, exists_and_left, exists_eq', and_true]

/-- Two threads that load three indices: the second puts its key between the two of the first, each
waiting for the lock while the other holds it. -/
def threePuts {ι : Type} (t u : ι) (v : Bytes) : List (ι × Action SlCall) :=
  [[(t, .call (.put (indexKey 0) v)), (t, .enter), (t, .access),
      (u, .call (.put (indexKey 1) v))],
    List.replicate 21 (t, .access), [(t, .leave), (u, .enter), (t, .call (.put (indexKey 2) v))],
    List.replicate 34 (u, .access), [(u, .leave), (t, .enter)],
    List.replicate 25 (t, .access), [(t, .leave)]].flatten

/-- Two threads put three keys in turns. -/
theorem seedThreads_spec_example :
  ∃ c : Config (Skiplist UInt64) SlCall SlAnswer (Fin 2),
    run (step (slObject randLevel 12)) (start (skiplistBackendOpen 1)) (threePuts 0 1 [118])
      = some c ∧
    (∀ answer ∈ c.answers, answer = .rc 0) ∧
    (∃ m, SlHolds c.state m ∧ ∀ k v, m.lookup k = some v
      ↔ (∃ i : ℕ, (i : ℤ) < 3 ∧ indexKey i = k) ∧ [118] = v) ∧
    c.state.count = 3
  := by
  obtain ⟨batches, hload, hspec⟩ := seedThreads_spec (.valsize 1 (by decide))
    (show (1 : ℤ) ≤ 3 by decide) (show 1 ≤ 2 by decide)
  have h0 : batches 0 = [[(indexKey 0, [118]), (indexKey 2, [118])]] := by
    apply Option.some.inj
    rw [← hload 0]
    rfl
  have h1 : batches 1 = [[(indexKey 1, [118])]] := by
    apply Option.some.inj
    rw [← hload 1]
    rfl
  have hsome : (run (step (slObject randLevel 12)) (start (skiplistBackendOpen 1))
      (threePuts (0 : Fin 2) 1 [118])).isSome := rfl
  have hrun := (Option.some_get hsome).symm
  use (Option.get _ hsome), hrun
  refine hspec 1 12 _ _ hrun (by decide) ?_ ?_
  · intro t
    match t with
    | 0 =>
      rw [h0]
      rfl
    | 1 =>
      rw [h1]
      rfl
  · intro t
    match t with
    | 0 => rfl
    | 1 => rfl

end Keybench
