import Keybench.Kv.Verbs
import Keybench.Lib.Retry

/-!
# The store and its engines

`KvBackend` is the table of operations that an engine gives to the store.  A write may answer
`kvRetry`, and the store then does it again until it answers something else.  `storeRequest`
is the store's treatment of a write; a batch goes to the engine as one batch when the engine
takes batches, and element by element otherwise.  `KvBackend.store` are the operations of the
store as the verbs use them.
-/

namespace Keybench

/-! ## Codes and requests -/

/-- `KV_RETRY`. -/
def kvRetry : ℤ := -2

/-- `KV_ERR`. -/
def kvErr : ℤ := -1

/-- A write of one key. -/
inductive KvWrite where
  | put (k v : Bytes)
  | del (k : Bytes)
deriving DecidableEq

/-- The contents after a write. -/
def KvWrite.apply (m : Contents) : KvWrite → Contents
  | .put k v => m.insert k v
  | .del k => m.erase k

/-- A request to write. -/
inductive KvRequest where
  | put (k v : Bytes)
  | putbatch (kvs : List (Bytes × Bytes))
  | del (k : Bytes)
  | delbatch (ks : List Bytes)
deriving DecidableEq

/-- The writes of a request, in order. -/
def KvRequest.writes : KvRequest → List KvWrite
  | .put k v => [.put k v]
  | .putbatch kvs => kvs.map (fun kv => .put kv.1 kv.2)
  | .del k => [.del k]
  | .delbatch ks => ks.map .del

/-! ## Engines -/

/-- The reading operations of an engine. -/
structure KvReads (S : Type) where
  /-- `get`: the return code and, when it is positive, the value. -/
  get : S → Bytes → ℤ × Bytes × S
  /-- `range`. -/
  range : {σ : Type} → S → Bytes → Bytes → ℤ → RowCallback σ Bytes Bytes → σ → ℤ × σ
  /-- A range does nothing to the callback's state but calling it. -/
  range_calls : ∀ {σ : Type} (s : S) (lo hi : Bytes) (limit : ℤ) (cb : RowCallback σ Bytes Bytes)
    (st : σ), ∃ rows, (range s lo hi limit cb st).2 = (scan cb rows st).state

/-- The operations of an engine.  The batches are optional. -/
structure KvBackend (S : Type) extends KvReads S where
  /-- `put`. -/
  put : S → Bytes → Bytes → ℤ × S
  /-- `putbatch`. -/
  putbatch : Option (S → List (Bytes × Bytes) → ℤ × S)
  /-- `del`. -/
  del : S → Bytes → ℤ × S
  /-- `delbatch`. -/
  delbatch : Option (S → List Bytes → ℤ × S)

variable {S : Type}

/-- Every write answers `kvRetry` finitely often. -/
structure KvBackend.Settles (be : KvBackend S) : Prop where
  put : ∀ s k v, Retry.Settles kvRetry (fun s => be.put s k v) s
  putbatch : ∀ f ∈ be.putbatch, ∀ s kvs, Retry.Settles kvRetry (fun s => f s kvs) s
  del : ∀ s k, Retry.Settles kvRetry (fun s => be.del s k) s
  delbatch : ∀ f ∈ be.delbatch, ∀ s ks, Retry.Settles kvRetry (fun s => f s ks) s

/-! ## The store -/

/-- The loop over a batch that is written element by element: the code is `-1` once an element
has failed, and the later elements are still written. -/
def batchLoop {α : Type} (one : S → α → ℤ × S) (failed : ℤ → Bool) : ℤ → S → List α → ℤ × S
  | rc, s, [] => (rc, s)
  | rc, s, x :: xs =>
    let (r, s) := one s x
    batchLoop one failed (if failed r then -1 else rc) s xs

section Store

variable (be : KvBackend S) (h : be.Settles)

/-- `store_put`. -/
def storePut (s : S) (k v : Bytes) : ℤ × S :=
  Retry.settle kvRetry (fun s => be.put s k v) s (h.put s k v)

/-- `store_putbatch`. -/
def storePutbatch (s : S) (kvs : List (Bytes × Bytes)) : ℤ × S :=
  match hf : be.putbatch with
  | some f => Retry.settle kvRetry (fun s => f s kvs) s (h.putbatch f hf s kvs)
  | none => batchLoop (fun s kv => storePut be h s kv.1 kv.2) (fun r => r ≠ 0) 0 s kvs

/-- `store_del`. -/
def storeDel (s : S) (k : Bytes) : ℤ × S :=
  Retry.settle kvRetry (fun s => be.del s k) s (h.del s k)

/-- `store_delbatch`. -/
def storeDelbatch (s : S) (ks : List Bytes) : ℤ × S :=
  match hf : be.delbatch with
  | some f => Retry.settle kvRetry (fun s => f s ks) s (h.delbatch f hf s ks)
  | none => batchLoop (storeDel be h) (fun r => r < 0) 0 s ks

/-- The store's treatment of a request. -/
def storeRequest (s : S) : KvRequest → ℤ × S
  | .put k v => storePut be h s k v
  | .putbatch kvs => storePutbatch be h s kvs
  | .del k => storeDel be h s k
  | .delbatch ks => storeDelbatch be h s ks

/-- The store as the verbs use it, with a clock beside it. -/
def KvBackend.store {C : Type} (clock : C → UInt64 × C) : KvStore (C × S) where
  nowNs cs := ((clock cs.1).1, (clock cs.1).2, cs.2)
  put cs k v := ((storePut be h cs.2 k v).1, cs.1, (storePut be h cs.2 k v).2)
  putbatch cs kvs := ((storePutbatch be h cs.2 kvs).1, cs.1, (storePutbatch be h cs.2 kvs).2)
  get cs k := ((be.get cs.2 k).1, (be.get cs.2 k).2.1, cs.1, (be.get cs.2 k).2.2)
  del cs k := ((storeDel be h cs.2 k).1, cs.1, (storeDel be h cs.2 k).2)
  delbatch cs ks := ((storeDelbatch be h cs.2 ks).1, cs.1, (storeDelbatch be h cs.2 ks).2)
  range cs lo hi limit cb st := be.range cs.2 lo hi limit cb st
  range_calls cs lo hi limit cb st := be.range_calls cs.2 lo hi limit cb st

end Store

/-- A batch the engine takes goes to the engine. -/
theorem storePutbatch_of_some {be : KvBackend S} (h : be.Settles)
    {f : S → List (Bytes × Bytes) → ℤ × S} (hf : be.putbatch = some f) (s : S)
    (kvs : List (Bytes × Bytes)) :
  storePutbatch be h s kvs
    = Retry.settle kvRetry (fun s => f s kvs) s (h.putbatch f hf s kvs)
  := by
  rw [storePutbatch]
  split
  · rename_i g hg
    obtain rfl : g = f := Option.some.inj (hg.symm.trans hf)
    rfl
  · rename_i hg
    rw [hf] at hg
    cases hg

/-- A batch the engine does not take is written element by element. -/
theorem storePutbatch_of_none {be : KvBackend S} (h : be.Settles) (hf : be.putbatch = none) (s : S)
    (kvs : List (Bytes × Bytes)) :
  storePutbatch be h s kvs
    = batchLoop (fun s kv => storePut be h s kv.1 kv.2) (fun r => r ≠ 0) 0 s kvs
  := by
  rw [storePutbatch]
  split
  · rename_i g hg
    rw [hf] at hg
    cases hg
  · rfl

/-- A batch the engine takes goes to the engine. -/
theorem storeDelbatch_of_some {be : KvBackend S} (h : be.Settles)
    {f : S → List Bytes → ℤ × S} (hf : be.delbatch = some f) (s : S) (ks : List Bytes) :
  storeDelbatch be h s ks
    = Retry.settle kvRetry (fun s => f s ks) s (h.delbatch f hf s ks)
  := by
  rw [storeDelbatch]
  split
  · rename_i g hg
    obtain rfl : g = f := Option.some.inj (hg.symm.trans hf)
    rfl
  · rename_i hg
    rw [hf] at hg
    cases hg

/-- A batch the engine does not take is written element by element. -/
theorem storeDelbatch_of_none {be : KvBackend S} (h : be.Settles) (hf : be.delbatch = none) (s : S)
    (ks : List Bytes) :
  storeDelbatch be h s ks = batchLoop (storeDel be h) (fun r => r < 0) 0 s ks
  := by
  rw [storeDelbatch]
  split
  · rename_i g hg
    rw [hf] at hg
    cases hg
  · rfl

end Keybench
