import Keybench.Kv.Reliable
import Keybench.Lib.Interleave
import Keybench.Workload.Cart

/-!
# Seeding a store with the cart workload

`T` threads load the cart workload into an empty store, each with a generator of its own, and their
writes come in any order (`CartLoaded`).  The order does not matter: the store holds the lines
`cartKeys`, in which the user `u` has what the thread `u % T` draws after `u / T` other users
(`cartDraw`).  The number of threads matters, unless all numbers of threads draw the same items for
each user (`sameData_iff`).
-/

namespace Keybench

variable {G : Type} (rng : LuaRandom G) (seed : UInt32) (users items : ℤ)

/-! ## The load phase -/

/-- `load_worker_main` of the thread `t` of `T`. -/
def loadWorker (T t : ℕ) : Option (List (List Bytes)) :=
  cartLoad rng users items t T (rng.randomseed (seed + UInt32.ofNat t))

/-- The writes of some batches of `load`. -/
def batchWrites (batches : List (List Bytes)) : List KvWrite :=
  batches.flatten.map fun key => KvWrite.put key cartValue

/-- What an empty store holds after the load phase with `T` threads, or `none` when the load of a
thread failed. -/
inductive CartLoaded (T : ℕ) : Option Contents → Prop
  /-- The load of a thread failed. -/
  | failed (t : Fin T) (h : loadWorker rng seed users items T t = none) : CartLoaded T none
  /-- The writes of the threads came in some order. -/
  | loaded (batches : Fin T → List (List Bytes)) (events : List (Fin T × KvWrite))
      (hload : ∀ t : Fin T, loadWorker rng seed users items T t = some (batches t))
      (hown : ∀ t, Interleave.own t events = batchWrites (batches t)) :
    CartLoaded T (some (applyAll OrderedMap.empty (events.map Prod.snd)))

/-- A number of seed threads: a positive `int`. -/
def SeedCount (T : ℕ) : Prop := 1 ≤ T ∧ T < 2 ^ 31

/-- Every number of seed threads, and every order of their writes, fills the store alike. -/
def SameData : Prop :=
  ∀ T T' m m', SeedCount T → SeedCount T' → CartLoaded rng seed users items T m →
    CartLoaded rng seed users items T' m' → m = m'

/-! ## The contents -/

/-- What is drawn for the user `u` when `T` threads load. -/
def cartDraw (T u : ℕ) : List ℤ :=
  nthDraw rng (rng.randomseed (seed + UInt32.ofNat (u % T))) (u / T)

/-- The lines of all users. -/
def cartKeys (T : ℕ) : Set Bytes :=
  {key | ∃ u : ℕ, u ≤ lastUser users ∧ ∃ o ∈ cartDraw rng seed T u,
    key = lineKey u (pickBase u items + o)}

/-- A store that holds exactly some keys, all with the value of a line. -/
def HoldsLines (keys : Set Bytes) (m : Contents) : Prop :=
  ∀ key value, m.lookup key = some value ↔ key ∈ keys ∧ cartValue = value

namespace HoldsLines

variable {keys keys' : Set Bytes} {m m' : Contents}

/-- The keys tell the contents. -/
theorem contents_eq (h : HoldsLines keys m) (h' : HoldsLines keys m') :
  m = m'
  := by
  apply OrderedMap.ext_lookup
  intro key
  apply Option.ext
  intro value
  rw [h key value, h' key value]

/-- The contents tell the keys. -/
theorem keys_eq (h : HoldsLines keys m) (h' : HoldsLines keys' m) :
  keys = keys'
  := by
  ext key
  have hkey := h key cartValue
  rw [h' key cartValue] at hkey
  simpa using hkey.symm

/-- A store after writes of lines. -/
theorem of_writes (lines : List Bytes) :
  HoldsLines {key | key ∈ lines}
    (applyAll OrderedMap.empty (lines.map fun key => KvWrite.put key cartValue))
  := lookup_puts cartValue lines

end HoldsLines

/-! ## One number of threads -/

variable {items}

/-- The lines of a thread are those of the users it owns. -/
theorem mem_loadWorker (hitems : 1 ≤ items) {T t : ℕ} (ht : t < T) :
  ∃ batches, loadWorker rng seed users items T t = some batches ∧
    ∀ key, key ∈ batches.flatten ↔ ∃ u : ℕ, u ≤ lastUser users ∧ u % T = t ∧
      ∃ o ∈ cartDraw rng seed T u, key = lineKey u (pickBase u items + o)
  := by
  obtain ⟨batches, hload, hlines⟩ := cartLoad_flatten rng hitems users t T
    (rng.randomseed (seed + UInt32.ofNat t))
  have hT : 0 < T := by omega
  use batches, hload
  intro key
  rw [hlines, mem_drawLines]
  simp only [getElem?_luaFor (Int.natCast_pos.mpr hT), cartLines, List.mem_map]
  constructor
  · rintro ⟨k, uid, ⟨rfl, hle⟩, o, ho, rfl⟩
    have hmod : (t + k * T) % T = t := by
      rw [Nat.add_mul_mod_self_right, Nat.mod_eq_of_lt ht]
    have hdiv : (t + k * T) / T = k := by
      rw [Nat.add_mul_div_right _ _ hT, Nat.div_eq_of_lt ht, Nat.zero_add]
    use t + k * T
    push_cast
    refine ⟨hle, hmod, o, ?_, rfl⟩
    rw [cartDraw, hmod, hdiv]
    apply ho
  · rintro ⟨u, hle, rfl, o, ho, rfl⟩
    have hu : (u : ℤ) = (u % T : ℕ) + (u / T : ℕ) * T := by
      rw [mul_comm]
      exact_mod_cast (Nat.mod_add_div u T).symm
    exact ⟨u / T, u, ⟨hu, hle⟩, o, ho, rfl⟩

namespace CartLoaded

variable {T : ℕ}

/-- The load phase with some number of threads has a result. -/
theorem exists_result (hitems : 1 ≤ items) (T : ℕ) :
  ∃ result, CartLoaded rng seed users items T result
  := by
  have hworker : ∀ t : Fin T, ∃ batches, loadWorker rng seed users items T t = some batches := by
    intro t
    obtain ⟨batches, hload, -⟩ := mem_loadWorker rng seed users hitems t.isLt
    exact ⟨batches, hload⟩
  choose batches hload using hworker
  obtain ⟨events, hown⟩ := Interleave.exists_own fun t => batchWrites (batches t)
  exact ⟨_, .loaded batches events hload hown⟩

variable {rng seed users}

/-- The writes of the threads together are the lines of all users. -/
theorem exists_lines (hitems : 1 ≤ items) {batches : Fin T → List (List Bytes)}
    {events : List (Fin T × KvWrite)}
    (hload : ∀ t : Fin T, loadWorker rng seed users items T t = some (batches t))
    (hown : ∀ t, Interleave.own t events = batchWrites (batches t)) (hT : 1 ≤ T) :
  ∃ lines : List Bytes, events.map Prod.snd = lines.map (fun key => KvWrite.put key cartValue) ∧
    {key | key ∈ lines} = cartKeys rng seed users items T
  := by
  have hmem : ∀ w, w ∈ events.map Prod.snd ↔
      ∃ t, ∃ key ∈ (batches t).flatten, KvWrite.put key cartValue = w := by
    intro w
    rw [Interleave.mem_map_snd]
    simp only [hown, batchWrites, List.mem_map]
  have hkeys : ∀ (t : Fin T) key, key ∈ (batches t).flatten ↔ ∃ u : ℕ, u ≤ lastUser users ∧
      u % T = t ∧ ∃ o ∈ cartDraw rng seed T u, key = lineKey u (pickBase u items + o) := by
    intro t
    obtain ⟨batches', hload', hkeys⟩ := mem_loadWorker rng seed users hitems t.isLt
    obtain rfl : batches t = batches' := Option.some.inj ((hload t).symm.trans hload')
    apply hkeys
  obtain ⟨lines, hlines⟩ : events.map Prod.snd ∈
      Set.range (List.map fun key => KvWrite.put key cartValue) := by
    rw [Set.range_list_map]
    intro w hw
    obtain ⟨-, key, -, rfl⟩ := (hmem w).mp hw
    use key
  use lines, hlines.symm
  ext key
  have hline : key ∈ lines ↔ KvWrite.put key cartValue ∈ events.map Prod.snd := by
    rw [← hlines]
    simp
  change key ∈ lines ↔ _
  rw [hline, hmem]
  simp only [KvWrite.put.injEq, and_true, exists_eq_right, hkeys]
  constructor
  · rintro ⟨-, u, hu, -, hdraw⟩
    exact ⟨u, hu, hdraw⟩
  · rintro ⟨u, hu, hdraw⟩
    exact ⟨⟨u % T, Nat.mod_lt u hT⟩, u, hu, rfl, hdraw⟩

/-- With items the load succeeds, and the store holds the lines of all users. -/
theorem holds (hitems : 1 ≤ items) (hT : 1 ≤ T) {result : Option Contents}
    (h : CartLoaded rng seed users items T result) :
  ∃ m, result = some m ∧ HoldsLines (cartKeys rng seed users items T) m
  := by
  cases h with
  | failed t h =>
    obtain ⟨batches, hload, -⟩ := mem_loadWorker rng seed users hitems t.isLt
    rw [hload] at h
    cases h
  | loaded batches events hload hown =>
    obtain ⟨lines, hevents, hlines⟩ := exists_lines hitems hload hown hT
    refine ⟨_, rfl, ?_⟩
    rw [hevents, ← hlines]
    apply HoldsLines.of_writes

/-- Without items the load fails, unless there are no users. -/
theorem eq_none (hitems : items < 1) (husers : 0 ≤ lastUser users) (hT : 1 ≤ T)
    {result : Option Contents} (h : CartLoaded rng seed users items T result) :
  result = none
  := by
  cases h with
  | failed t h => rfl
  | loaded batches events hload hown =>
    have hfirst : loadWorker rng seed users items T 0 = none := by
      apply cartLoad_of_no_items rng hitems husers
    rw [hload ⟨0, hT⟩] at hfirst
    cases hfirst

/-- Without users nothing is loaded. -/
theorem eq_empty (husers : lastUser users < 0) {result : Option Contents}
    (h : CartLoaded rng seed users items T result) :
  result = some OrderedMap.empty
  := by
  have hload : ∀ t : Fin T, loadWorker rng seed users items T t = some [] := by
    intro t
    rw [loadWorker, cartLoad, luaFor, if_pos (by omega)]
    rfl
  cases h with
  | failed t h =>
    rw [hload] at h
    cases h
  | loaded batches events hload' hown =>
    have hevents : events.map Prod.snd = [] := by
      apply List.eq_nil_iff_forall_not_mem.mpr
      intro w hw
      obtain ⟨t, ht⟩ := Interleave.mem_map_snd.mp hw
      have hnil : batches t = [] := Option.some.inj ((hload' t).symm.trans (hload t))
      rw [hown, hnil] at ht
      cases ht
    rw [hevents]
    rfl

end CartLoaded

/-! ## Two numbers of threads -/

/-- Two numbers of threads load the same lines exactly when they draw the same items for each
user. -/
theorem cartKeys_eq_iff (items : ℤ) {T T' : ℕ} :
  cartKeys rng seed users items T = cartKeys rng seed users items T' ↔
    ∀ u : ℕ, u ≤ lastUser users → ∀ o, o ∈ cartDraw rng seed T u ↔ o ∈ cartDraw rng seed T' u
  := by
  have hsub : ∀ T T', cartKeys rng seed users items T ⊆ cartKeys rng seed users items T' ↔
      ∀ u : ℕ, u ≤ lastUser users → ∀ o, o ∈ cartDraw rng seed T u → o ∈ cartDraw rng seed T' u := by
    intro T T'
    constructor
    · intro h u hu o ho
      obtain ⟨u', hu', o', ho', heq⟩ := h ⟨u, hu, o, ho, rfl⟩
      have hbase := pickBase_nonneg u items
      have hbase' := pickBase_nonneg u' items
      have hnonneg := nonneg_of_mem_nthDraw rng ho
      have hnonneg' := nonneg_of_mem_nthDraw rng ho'
      obtain ⟨huser, hitem⟩ := lineKey_injective (Int.natCast_nonneg u) (Int.natCast_nonneg u')
        (by omega) (by omega) heq
      obtain rfl : u = u' := Int.ofNat_inj.mp huser
      obtain rfl : o = o' := Int.add_left_cancel hitem
      apply ho'
    · rintro h key ⟨u, hu, o, ho, rfl⟩
      exact ⟨u, hu, o, h u hu o ho, rfl⟩
  rw [Set.Subset.antisymm_iff, hsub, hsub]
  constructor
  · rintro ⟨h, h'⟩ u hu o
    exact ⟨h u hu o, h' u hu o⟩
  · intro h
    constructor
    · intro u hu o
      apply (h u hu o).mp
    · intro u hu o
      apply (h u hu o).mpr

/-- With items, the data do not depend on the number of threads exactly when all numbers of threads
load the lines that one thread loads. -/
theorem sameData_iff_keys (hitems : 1 ≤ items) :
  SameData rng seed users items ↔
    ∀ T, SeedCount T → cartKeys rng seed users items T = cartKeys rng seed users items 1
  := by
  have hone : SeedCount 1 := ⟨le_refl 1, by norm_num⟩
  constructor
  · intro hsame T hT
    obtain ⟨result, hresult⟩ := CartLoaded.exists_result rng seed users hitems T
    obtain ⟨result', hresult'⟩ := CartLoaded.exists_result rng seed users hitems 1
    obtain ⟨m, rfl, hm⟩ := hresult.holds hitems hT.1
    obtain ⟨m', rfl, hm'⟩ := hresult'.holds hitems hone.1
    obtain rfl : m = m' := Option.some.inj (hsame T 1 _ _ hT hone hresult hresult')
    apply hm.keys_eq hm'
  · intro hkeys T T' result result' hT hT' hresult hresult'
    obtain ⟨m, rfl, hm⟩ := hresult.holds hitems hT.1
    obtain ⟨m', rfl, hm'⟩ := hresult'.holds hitems hT'.1
    rw [hkeys T hT] at hm
    rw [hkeys T' hT'] at hm'
    rw [hm.contents_eq hm']

/-- The data do not depend on the number of threads, nor on the order of their writes, exactly when
there are no items or the items of each user are drawn alike with one thread and with more. -/
theorem sameData_iff (rng : LuaRandom G) (seed : UInt32) (users items : ℤ) :
  SameData rng seed users items ↔
    items < 1 ∨ ∀ T, SeedCount T → ∀ u : ℕ, u ≤ lastUser users →
      ∀ o, o ∈ cartDraw rng seed T u ↔ o ∈ cartDraw rng seed 1 u
  := by
  rcases lt_or_ge items 1 with hitems | hitems
  · -- without items the load fails, or there is nothing to load
    simp only [hitems, true_or, iff_true]
    intro T T' m m' hT hT' hm hm'
    rcases lt_or_ge (lastUser users) 0 with husers | husers
    · rw [hm.eq_empty husers, hm'.eq_empty husers]
    · rw [hm.eq_none hitems husers hT.1, hm'.eq_none hitems husers hT'.1]
  · rw [sameData_iff_keys rng seed users hitems]
    simp only [not_lt.mpr hitems, false_or, cartKeys_eq_iff]

/-- A generator that always draws the same number of a range, which the seed tells. -/
def steadyRandom : LuaRandom UInt32 where
  randomseed seed := seed
  random g lo hi := (lo + g.toNat % (hi - lo + 1), g)
  random_mem g lo hi h := by
    have hnonneg := Int.emod_nonneg (g.toNat : ℤ) (b := hi - lo + 1) (by omega)
    have hlt := Int.emod_lt_of_pos (g.toNat : ℤ) (b := hi - lo + 1) (by omega)
    constructor
    · show lo ≤ lo + _
      omega
    · show lo + _ ≤ hi
      omega

/-- Two users are loaded differently by one thread and by two. -/
theorem not_sameData :
  ¬ SameData steadyRandom 1 2 100
  := by
  rw [sameData_iff_keys _ _ _ (by decide)]
  intro hkeys
  have hdraw := (cartKeys_eq_iff _ _ _ _).mp (hkeys 2 ⟨by decide, by decide⟩) 1 (by decide) 2
  revert hdraw
  decide

/-! ## Requests -/

/-- Threads that hand their batches to a reliable engine, in any order, load the store. -/
theorem CartLoaded.of_requests {S : Type} {be : KvBackend S} {contents : S → Contents}
    (hr : be.Reliable contents) {s : S} (hs : contents s = OrderedMap.empty) {T : ℕ}
    {batches : Fin T → List (List Bytes)} {requests : List (Fin T × List Bytes)}
    (hload : ∀ t : Fin T, loadWorker rng seed users items T t = some (batches t))
    (hown : ∀ t, Interleave.own t requests = batches t) :
  CartLoaded rng seed users items T (some (contents (storeRun be hr.settles s
    (requests.map fun x => KvRequest.putbatch (x.2.map fun key => (key, cartValue))))))
  := by
  have hwrites : (requests.map fun x =>
        KvRequest.putbatch (x.2.map fun key => (key, cartValue))).flatMap KvRequest.writes
      = (requests.flatMap fun x =>
        (x.2.map fun key => KvWrite.put key cartValue).map fun w => (x.1, w)).map Prod.snd := by
    simp [List.flatMap_map, List.map_flatMap, KvRequest.writes, Function.comp_def]
  rw [hr.contents_storeRun, hs, hwrites]
  apply CartLoaded.loaded batches _ hload
  intro t
  rw [Interleave.own_flatMap, hown, batchWrites, List.map_flatten, List.flatMap]

end Keybench
