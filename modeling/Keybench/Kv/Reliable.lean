import Keybench.Kv.Backend

/-!
# Engines that are maps

An engine is reliable for some contents when each of its writes is done at once.  The store
then adds nothing to it: a request changes the contents by its writes
(`Reliable.contents_storeRequest`), and so does a history of requests
(`Reliable.contents_storeRun`).
-/

namespace Keybench

variable {S : Type}

/-- The contents after some writes. -/
def applyAll (m : Contents) (ws : List KvWrite) : Contents := ws.foldl KvWrite.apply m

/-- Every write of an engine is done at once, in the contents it holds. -/
structure KvBackend.Reliable (be : KvBackend S) (contents : S → Contents) : Prop where
  put : ∀ s k v, (be.put s k v).1 = 0 ∧ contents (be.put s k v).2 = (contents s).insert k v
  putbatch : ∀ f ∈ be.putbatch, ∀ s kvs, (f s kvs).1 = 0 ∧
    contents (f s kvs).2 = applyAll (contents s) (KvRequest.writes (.putbatch kvs))
  del : ∀ s k, 0 ≤ (be.del s k).1 ∧ contents (be.del s k).2 = (contents s).erase k
  delbatch : ∀ f ∈ be.delbatch, ∀ s ks, 0 ≤ (f s ks).1 ∧
    contents (f s ks).2 = applyAll (contents s) (KvRequest.writes (.delbatch ks))

namespace KvBackend.Reliable

variable {be : KvBackend S} {contents : S → Contents} (hr : be.Reliable contents)

/-- Codes that are not negative are no retries. -/
theorem ne_retry {rc : ℤ} (h : 0 ≤ rc) :
  rc ≠ kvRetry
  := by
  rintro rfl
  revert h
  decide

include hr

/-- A reliable engine answers no retry. -/
theorem settles :
  be.Settles
  := by
  constructor
  case put =>
    intro s k v
    apply Retry.settles_of_ne
    apply ne_retry (hr.put s k v).1.ge
  case putbatch =>
    intro f hf s kvs
    apply Retry.settles_of_ne
    apply ne_retry (hr.putbatch f hf s kvs).1.ge
  case del =>
    intro s k
    apply Retry.settles_of_ne
    apply ne_retry (hr.del s k).1
  case delbatch =>
    intro f hf s ks
    apply Retry.settles_of_ne
    apply ne_retry (hr.delbatch f hf s ks).1

variable (h : be.Settles)

/-- The store puts once. -/
theorem storePut_eq (s : S) (k v : Bytes) :
  storePut be h s k v = be.put s k v
  := by
  apply Retry.settle_of_ne
  apply ne_retry (hr.put s k v).1.ge

/-- The store deletes once. -/
theorem storeDel_eq (s : S) (k : Bytes) :
  storeDel be h s k = be.del s k
  := by
  apply Retry.settle_of_ne
  apply ne_retry (hr.del s k).1

omit hr in
/-- The contents after a batch that is written element by element. -/
theorem contents_batchLoop {α : Type} {one : S → α → ℤ × S} {write : α → KvWrite}
    (hone : ∀ s x, contents (one s x).2 = (write x).apply (contents s)) (failed : ℤ → Bool) (rc : ℤ)
    (s : S) (xs : List α) :
  contents (batchLoop one failed rc s xs).2 = applyAll (contents s) (xs.map write)
  := by
  induction xs generalizing rc s with
  | nil => rfl
  | cons x xs ih =>
    rw [batchLoop]
    rw [ih, hone]
    rfl

/-- A request changes the contents by its writes. -/
theorem contents_storeRequest (s : S) (q : KvRequest) :
  contents (storeRequest be h s q).2 = applyAll (contents s) q.writes
  := by
  cases q with
  | put k v =>
    rw [storeRequest, hr.storePut_eq]
    apply (hr.put s k v).2
  | putbatch kvs =>
    rw [storeRequest]
    cases hf : be.putbatch with
    | some f =>
      rw [storePutbatch_of_some h hf, Retry.settle_of_ne]
      · apply (hr.putbatch f hf s kvs).2
      · apply ne_retry (hr.putbatch f hf s kvs).1.ge
    | none =>
      rw [storePutbatch_of_none h hf]
      apply contents_batchLoop
      intro s kv
      rw [hr.storePut_eq]
      apply (hr.put s kv.1 kv.2).2
  | del k =>
    rw [storeRequest, hr.storeDel_eq]
    apply (hr.del s k).2
  | delbatch ks =>
    rw [storeRequest]
    cases hf : be.delbatch with
    | some f =>
      rw [storeDelbatch_of_some h hf, Retry.settle_of_ne]
      · apply (hr.delbatch f hf s ks).2
      · apply ne_retry (hr.delbatch f hf s ks).1
    | none =>
      rw [storeDelbatch_of_none h hf]
      apply contents_batchLoop
      intro s k
      rw [hr.storeDel_eq]
      apply (hr.del s k).2

end KvBackend.Reliable

/-! ## Histories -/

/-- The state after a history of requests. -/
def storeRun (be : KvBackend S) (h : be.Settles) (s : S) (qs : List KvRequest) : S :=
  qs.foldl (fun s q => (storeRequest be h s q).2) s

/-- A history changes the contents by its writes. -/
theorem KvBackend.Reliable.contents_storeRun {be : KvBackend S} {contents : S → Contents}
    (hr : be.Reliable contents) (h : be.Settles) (s : S) (qs : List KvRequest) :
  contents (storeRun be h s qs) = applyAll (contents s) (qs.flatMap KvRequest.writes)
  := by
  induction qs generalizing s with
  | nil => rfl
  | cons q qs ih =>
    have hstep := hr.contents_storeRequest h s q
    rw [storeRun, List.foldl_cons, ← storeRun, ih, hstep, List.flatMap_cons, applyAll, applyAll,
      applyAll, List.foldl_append]

/-- What an empty store holds after puts of one value. -/
theorem lookup_puts (value : Bytes) (keys : List Bytes) (k v : Bytes) :
  (applyAll OrderedMap.empty (keys.map fun k => KvWrite.put k value)).lookup k = some v
    ↔ k ∈ keys ∧ value = v
  := by
  induction keys using List.reverseRecOn with
  | nil => simp [applyAll]
  | append_singleton keys last ih =>
    rw [applyAll, List.map_append, List.foldl_append]
    change OrderedMap.lookup (OrderedMap.insert (applyAll _ _) last value) k = _ ↔ _
    rw [OrderedMap.lookup_insert]
    split_ifs with hkey
    · simp [hkey]
    · rw [ih]
      simp [hkey]

/-- What is left after some deletes. -/
theorem lookup_dels (m : Contents) (ks : List Bytes) (k : Bytes) :
  (applyAll m (ks.map .del)).lookup k = if k ∈ ks then none else m.lookup k
  := by
  induction ks generalizing m with
  | nil => rfl
  | cons d ks ih =>
    rw [List.map_cons, applyAll, List.foldl_cons, ← applyAll, ih, KvWrite.apply,
      OrderedMap.lookup_erase]
    split_ifs <;> simp_all

end Keybench
