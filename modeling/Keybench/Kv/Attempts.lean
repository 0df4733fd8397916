import Keybench.Kv.Backend

/-!
# Attempts to write

`KvBackend.logged` is an engine that keeps a log of the attempts the store makes on it.  When
the engine's writes settle, the store drives each write it is asked for, in order, to exactly
one outcome that is not a retry; it never answers `kvRetry`, and the contents are changed by
the accepted writes, once each and in order (`storeRequest_spec`).
-/

namespace Keybench

variable {S M : Type}

/-! ## The log -/

/-- A call of an engine's write operation with its code. -/
abbrev Attempt : Type := KvRequest × ℤ

/-- An operation that also notes its attempt. -/
def logged (q : KvRequest) (op : S → ℤ × S) (sl : S × List Attempt) : ℤ × S × List Attempt :=
  ((op sl.1).1, (op sl.1).2, sl.2 ++ [(q, (op sl.1).1)])

/-- The engine with a log of the attempts to write. -/
def KvBackend.logged (be : KvBackend S) : KvBackend (S × List Attempt) where
  get sl k := ((be.get sl.1 k).1, (be.get sl.1 k).2.1, (be.get sl.1 k).2.2, sl.2)
  range sl lo hi limit cb st := be.range sl.1 lo hi limit cb st
  range_calls sl lo hi limit cb st := be.range_calls sl.1 lo hi limit cb st
  put sl k v := Keybench.logged (.put k v) (fun s => be.put s k v) sl
  putbatch := be.putbatch.map
    (fun f sl kvs => Keybench.logged (.putbatch kvs) (fun s => f s kvs) sl)
  del sl k := Keybench.logged (.del k) (fun s => be.del s k) sl
  delbatch := be.delbatch.map (fun f sl ks => Keybench.logged (.delbatch ks) (fun s => f s ks) sl)

/-- An operation that settles does so with a log. -/
theorem settles_logged {q : KvRequest} {op : S → ℤ × S} {s : S}
    (h : Retry.Settles kvRetry op s) (l : List Attempt) :
  Retry.Settles kvRetry (logged q op) (s, l)
  := by
  have hop : ∀ sl : S × List Attempt, ((logged q op sl).1, (logged q op sl).2.1) = op sl.1 :=
    fun sl => rfl
  apply Retry.settles_map Prod.fst hop
  apply h

/-- The writes settle with a log. -/
theorem KvBackend.Settles.logged {be : KvBackend S} (h : be.Settles) :
  be.logged.Settles
  := by
  constructor
  case put =>
    intro sl k v
    apply settles_logged (h.put sl.1 k v)
  case putbatch =>
    intro f hf sl kvs
    obtain ⟨g, hg, rfl⟩ := Option.mem_map.mp hf
    apply settles_logged (h.putbatch g hg sl.1 kvs)
  case del =>
    intro sl k
    apply settles_logged (h.del sl.1 k)
  case delbatch =>
    intro f hf sl ks
    obtain ⟨g, hg, rfl⟩ := Option.mem_map.mp hf
    apply settles_logged (h.delbatch g hg sl.1 ks)

/-! ## Outcomes -/

/-- The engine did what it was asked for. -/
def accepted : Attempt → Bool
  | (.put _ _, rc) => rc = 0
  | (.putbatch _, rc) => rc = 0
  | (.del _, rc) => 0 ≤ rc
  | (.delbatch _, rc) => 0 ≤ rc

/-- The engine failed, and not for the moment only. -/
def FailedHard (a : Attempt) : Prop := a.2 ≠ kvRetry ∧ accepted a = false

/-- The contents after the accepted attempts of a log. -/
def landed (apply : M → KvWrite → M) (m : M) (log : List Attempt) : M :=
  ((log.filter accepted).flatMap (fun a => a.1.writes)).foldl apply m

/-- A log drives calls, one after the other, each to exactly one outcome that is not a
retry. -/
inductive Driven : List KvRequest → List Attempt → Prop where
  | nil : Driven [] []
  | cons {q : KvRequest} {qs : List KvRequest} {rc : ℤ} {log : List Attempt} (retries : ℕ)
      (outcome : rc ≠ kvRetry) (rest : Driven qs log) :
      Driven (q :: qs) (List.replicate retries (q, kvRetry) ++ (q, rc) :: log)

/-- The calls the store makes for a request, apart from retries. -/
def KvRequest.calls (be : KvBackend S) : KvRequest → List KvRequest
  | .put k v => [.put k v]
  | .putbatch kvs =>
    if be.putbatch.isSome then [.putbatch kvs] else kvs.map (fun kv => .put kv.1 kv.2)
  | .del k => [.del k]
  | .delbatch ks => if be.delbatch.isSome then [.delbatch ks] else ks.map .del

/-- What an engine promises: a write is done when it is accepted and leaves the contents as
they are otherwise, and a batch that is not done answers `kvRetry` or the plain failure code. -/
structure KvBackend.Writes (be : KvBackend S) (contents : S → M) (apply : M → KvWrite → M) :
    Prop where
  put : ∀ s k v, contents (be.put s k v).2
    = landed apply (contents s) [(.put k v, (be.put s k v).1)]
  putbatch : ∀ f ∈ be.putbatch, ∀ s kvs, contents (f s kvs).2
    = landed apply (contents s) [(.putbatch kvs, (f s kvs).1)]
  del : ∀ s k, contents (be.del s k).2 = landed apply (contents s) [(.del k, (be.del s k).1)]
  delbatch : ∀ f ∈ be.delbatch, ∀ s ks, contents (f s ks).2
    = landed apply (contents s) [(.delbatch ks, (f s ks).1)]
  putbatch_code : ∀ f ∈ be.putbatch, ∀ s kvs,
    (f s kvs).1 = 0 ∨ (f s kvs).1 = -1 ∨ (f s kvs).1 = kvRetry
  delbatch_code : ∀ f ∈ be.delbatch, ∀ s ks,
    0 ≤ (f s ks).1 ∨ (f s ks).1 = -1 ∨ (f s ks).1 = kvRetry

/-- A retry changes nothing. -/
theorem accepted_retry (q : KvRequest) :
  accepted (q, kvRetry) = false
  := by
  cases q with
  | put k v => rfl
  | putbatch kvs => rfl
  | del k => rfl
  | delbatch ks => rfl

theorem landed_append (apply : M → KvWrite → M) (m : M) (a b : List Attempt) :
  landed apply m (a ++ b) = landed apply (landed apply m a) b
  := by
  rw [landed, landed, landed, List.filter_append, List.flatMap_append, List.foldl_append]

theorem landed_retry (apply : M → KvWrite → M) (m : M) (q : KvRequest) (log : List Attempt) :
  landed apply m ((q, kvRetry) :: log) = landed apply m log
  := by
  rw [landed, List.filter_cons, accepted_retry, landed]
  rfl

theorem Driven.append {qs qs' : List KvRequest} {log log' : List Attempt} (h : Driven qs log)
    (h' : Driven qs' log') :
  Driven (qs ++ qs') (log ++ log')
  := by
  induction h with
  | nil => apply h'
  | cons retries outcome _ ih =>
    rw [List.cons_append, List.append_assoc, List.cons_append]
    apply Driven.cons retries outcome ih

theorem Driven.retry {q : KvRequest} {qs : List KvRequest} {log : List Attempt}
    (h : Driven (q :: qs) log) :
  Driven (q :: qs) ((q, kvRetry) :: log)
  := by
  cases h with
  | cons retries outcome rest =>
    rw [← List.cons_append, ← List.replicate_succ]
    apply Driven.cons (retries + 1) outcome rest

/-! ## Driving one call -/

/-- What a log says about calls from a state to another. -/
structure Serves (contents : S → M) (apply : M → KvWrite → M) (qs : List KvRequest) (s s' : S)
    (log : List Attempt) : Prop where
  driven : Driven qs log
  landed : contents s' = landed apply (contents s) log

theorem Serves.append {contents : S → M} {apply : M → KvWrite → M} {qs qs' : List KvRequest}
    {s s' s'' : S} {log log' : List Attempt} (h : Serves contents apply qs s s' log)
    (h' : Serves contents apply qs' s' s'' log') :
  Serves contents apply (qs ++ qs') s s'' (log ++ log')
  := by
  constructor
  case driven => apply h.driven.append h'.driven
  case landed => rw [h'.landed, h.landed, landed_append]

/-- A call has been driven to one outcome, which is the code it answers with. -/
def Outcome (contents : S → M) (apply : M → KvWrite → M) (q : KvRequest) (sl : S × List Attempt)
    (r : ℤ × S × List Attempt) : Prop :=
  ∃ log, r.2.2 = sl.2 ++ log ∧ Serves contents apply [q] sl.1 r.2.1 log ∧ r.1 ≠ kvRetry ∧
    ((q, r.1) ∈ log ∧ ∀ a ∈ log, a.2 ≠ kvRetry → a = (q, r.1))

section Calls

variable {contents : S → M} {apply : M → KvWrite → M} {q : KvRequest} {op : S → ℤ × S}
  (hop : ∀ s, contents (op s).2 = landed apply (contents s) [(q, (op s).1)])

include hop

/-- The last attempt is an outcome. -/
theorem Outcome.done (sl : S × List Attempt) (hne : (logged q op sl).1 ≠ kvRetry) :
  Outcome contents apply q sl (logged q op sl)
  := by
  use [(q, (op sl.1).1)], rfl
  and_intros
  · exact ⟨Driven.cons 0 hne Driven.nil, hop sl.1⟩
  · apply hne
  · apply List.mem_singleton.mpr rfl
  · intro a ha _
    apply List.mem_singleton.mp ha

/-- A retry before an outcome. -/
theorem Outcome.retry (sl : S × List Attempt) (r : ℤ × S × List Attempt)
    (hagain : (logged q op sl).1 = kvRetry) (hr : Outcome contents apply q (logged q op sl).2 r) :
  Outcome contents apply q sl r
  := by
  have hcode : (op sl.1).1 = kvRetry := hagain
  have hkeep : contents (op sl.1).2 = contents sl.1 := by
    rw [hop, hcode, landed_retry]
    rfl
  obtain ⟨log, hlog, hserves, hne, hmem, hall⟩ := hr
  use (q, kvRetry) :: log
  and_intros
  · rw [hlog, logged, hcode, List.append_assoc, List.singleton_append]
  · constructor
    case driven => apply hserves.driven.retry
    case landed =>
      rw [landed_retry, hserves.landed]
      apply congrArg (fun m => landed apply m log) hkeep
  · apply hne
  · apply List.mem_cons_of_mem _ hmem
  · intro a ha hane
    rcases List.mem_cons.mp ha with rfl | ha
    · exact absurd rfl hane
    · apply hall a ha hane

/-- A call is driven to one outcome, and answers as it does without a log. -/
theorem settle_logged {s : S} (h : Retry.Settles kvRetry op s) (l : List Attempt)
    (h' : Retry.Settles kvRetry (logged q op) (s, l)) :
  Outcome contents apply q (s, l) (Retry.settle kvRetry (logged q op) (s, l) h') ∧
    ((Retry.settle kvRetry (logged q op) (s, l) h').1,
        (Retry.settle kvRetry (logged q op) (s, l) h').2.1)
      = Retry.settle kvRetry op s h
  := by
  constructor
  · apply Retry.settle_induct (motive := Outcome contents apply q)
    · apply Outcome.done hop
    · apply Outcome.retry hop
  · apply Retry.settle_map Prod.fst (t := (s, l)) (fun sl => rfl) h h'

end Calls

/-! ## Driving a batch -/

/-- Calls have been driven to one outcome each, with the code of a batch: `-1` when one of them
failed hard, and the code before otherwise. -/
def BatchOutcome (contents : S → M) (apply : M → KvWrite → M) (qs : List KvRequest) (rc : ℤ)
    (sl : S × List Attempt) (r : ℤ × S × List Attempt) : Prop :=
  ∃ log, r.2.2 = sl.2 ++ log ∧ Serves contents apply qs sl.1 r.2.1 log ∧
    ((r.1 = -1 ∧ ∃ a ∈ log, FailedHard a) ∨ (r.1 = rc ∧ ¬ ∃ a ∈ log, FailedHard a))

/-- A call whose code tells whether it failed. -/
theorem Outcome.exists_failedHard {contents : S → M} {apply : M → KvWrite → M} {q : KvRequest}
    {sl : S × List Attempt} {r : ℤ × S × List Attempt} {failed : ℤ → Bool}
    (h : Outcome contents apply q sl r) (hfailed : ∀ rc, failed rc = !accepted (q, rc)) :
  ∃ log, r.2.2 = sl.2 ++ log ∧ Serves contents apply [q] sl.1 r.2.1 log ∧
    ((∃ a ∈ log, FailedHard a) ↔ failed r.1 = true)
  := by
  obtain ⟨log, hlog, hserves, hne, hmem, hall⟩ := h
  use log, hlog, hserves
  constructor
  · rintro ⟨a, ha, hane, hrejected⟩
    rw [hfailed, ← hall a ha hane, hrejected]
    rfl
  · intro hf
    rw [hfailed, Bool.not_eq_true'] at hf
    exact ⟨_, hmem, hne, hf⟩

section Batches

variable {α : Type} {contents : S → M} {apply : M → KvWrite → M} (one : S → α → ℤ × S)
  (one' : S × List Attempt → α → ℤ × S × List Attempt) {req : α → KvRequest} {failed : ℤ → Bool}

theorem batchLoop_cons (rc : ℤ) (s : S) (x : α) (xs : List α) :
  batchLoop one failed rc s (x :: xs)
    = batchLoop one failed (if failed (one s x).1 then -1 else rc) (one s x).2 xs
  := rfl

/-- A batch that is written element by element drives each element to one outcome. -/
theorem batchLoop_logged
    (hone : ∀ sl x, Outcome contents apply (req x) sl (one' sl x) ∧
      ((one' sl x).1, (one' sl x).2.1) = one sl.1 x)
    (hfailed : ∀ x rc, failed rc = !accepted (req x, rc)) :
  ∀ (xs : List α) (rc : ℤ) (sl : S × List Attempt),
    BatchOutcome contents apply (xs.map req) rc sl (batchLoop one' failed rc sl xs) ∧
      ((batchLoop one' failed rc sl xs).1, (batchLoop one' failed rc sl xs).2.1)
        = batchLoop one failed rc sl.1 xs
  | [], rc, sl => by
    constructor
    · use [], (List.append_nil _).symm
      constructor
      · exact ⟨Driven.nil, rfl⟩
      · right
        simp [batchLoop]
    · rfl
  | x :: xs, rc, sl => by
    obtain ⟨hout, hsame⟩ := hone sl x
    obtain ⟨log, hlog, hserves, hhard⟩ := hout.exists_failedHard (hfailed x)
    obtain ⟨⟨log', hlog', hserves', hcode⟩, hsame'⟩ :=
      batchLoop_logged hone hfailed xs (if failed (one' sl x).1 then -1 else rc) (one' sl x).2
    rw [batchLoop_cons, batchLoop_cons]
    constructor
    · use log ++ log'
      and_intros
      · rw [hlog', hlog, List.append_assoc]
      · apply hserves.append hserves'
      · have hor : (∃ a ∈ log ++ log', FailedHard a)
            ↔ (∃ a ∈ log, FailedHard a) ∨ ∃ a ∈ log', FailedHard a := by
          simp only [List.mem_append, or_and_right, exists_or]
        rw [hor]
        rcases hcode with ⟨hcode, hex⟩ | ⟨hcode, hnone⟩
        · exact Or.inl ⟨hcode, Or.inr hex⟩
        · by_cases hf : failed (one' sl x).1 = true
          · left
            exact ⟨hcode.trans (if_pos hf), Or.inl (hhard.mpr hf)⟩
          · right
            refine ⟨hcode.trans (if_neg hf), ?_⟩
            rintro (hex | hex)
            · apply hf (hhard.mp hex)
            · apply hnone hex
    · rw [hsame', ← hsame]

end Batches

/-! ## Driving a request -/

/-- Whether a request is a batch. -/
def KvRequest.isBatch : KvRequest → Bool
  | .put _ _ => false
  | .putbatch _ => true
  | .del _ => false
  | .delbatch _ => true

/-- A batch has been served: the code is `-1` exactly when a call failed hard. -/
def BatchServed (contents : S → M) (apply : M → KvWrite → M) (qs : List KvRequest)
    (sl : S × List Attempt) (r : ℤ × S × List Attempt) : Prop :=
  ∃ log, r.2.2 = sl.2 ++ log ∧ Serves contents apply qs sl.1 r.2.1 log ∧ r.1 ≠ kvRetry ∧
    (r.1 = -1 ↔ ∃ a ∈ log, FailedHard a)

/-- A batch that was written element by element has been served. -/
theorem BatchOutcome.served {contents : S → M} {apply : M → KvWrite → M} {qs : List KvRequest}
    {sl : S × List Attempt} {r : ℤ × S × List Attempt}
    (h : BatchOutcome contents apply qs 0 sl r) :
  BatchServed contents apply qs sl r
  := by
  obtain ⟨log, hlog, hserves, hcode⟩ := h
  use log, hlog, hserves
  rcases hcode with ⟨hcode, hex⟩ | ⟨hcode, hnone⟩
  · rw [hcode]
    exact ⟨by decide, fun _ => hex, fun _ => rfl⟩
  · rw [hcode]
    refine ⟨by decide, ?_, fun hex => absurd hex hnone⟩
    intro hzero
    cases hzero

/-- A batch that the engine took has been served, when the code `-1` tells that it failed. -/
theorem Outcome.served {contents : S → M} {apply : M → KvWrite → M} {q : KvRequest}
    {sl : S × List Attempt} {r : ℤ × S × List Attempt} (h : Outcome contents apply q sl r)
    (hcode : r.1 ≠ kvRetry → (r.1 = -1 ↔ accepted (q, r.1) = false)) :
  BatchServed contents apply [q] sl r
  := by
  obtain ⟨log, hlog, hserves, hne, hmem, hall⟩ := h
  use log, hlog, hserves, hne
  rw [hcode hne]
  constructor
  · intro hrejected
    exact ⟨_, hmem, hne, hrejected⟩
  · rintro ⟨a, ha, hane, hrejected⟩
    rw [← hall a ha hane]
    apply hrejected

/-- A batch that settles on an engine that took it has been served, when the code `-1` tells that
it failed. -/
theorem settle_served {contents : S → M} {apply : M → KvWrite → M} {q : KvRequest} {op : S → ℤ × S}
    (hop : ∀ s, contents (op s).2 = landed apply (contents s) [(q, (op s).1)])
    (hcode : ∀ s, (op s).1 ≠ kvRetry → ((op s).1 = -1 ↔ accepted (q, (op s).1) = false))
    {s : S} (h : Retry.Settles kvRetry op s) (l : List Attempt)
    (h' : Retry.Settles kvRetry (logged q op) (s, l)) :
  BatchServed contents apply [q] (s, l) (Retry.settle kvRetry (logged q op) (s, l) h') ∧
    ((Retry.settle kvRetry (logged q op) (s, l) h').1,
        (Retry.settle kvRetry (logged q op) (s, l) h').2.1)
      = Retry.settle kvRetry op s h
  := by
  obtain ⟨hout, hsame⟩ := settle_logged hop h l h'
  constructor
  · apply hout.served
    apply Retry.settle_code (P := fun rc => rc ≠ kvRetry → (rc = -1 ↔ accepted (q, rc) = false)) h'
    intro sl
    apply hcode sl.1
  · apply hsame

section Requests

variable {be : KvBackend S} (h : be.Settles) {contents : S → M} {apply : M → KvWrite → M}
  (hw : be.Writes contents apply)

include hw

/-- The code of a batch of puts that the engine took tells whether it failed. -/
theorem KvBackend.Writes.putbatch_failed {f : S → List (Bytes × Bytes) → ℤ × S}
    (hf : f ∈ be.putbatch) (s : S) (kvs : List (Bytes × Bytes)) (hne : (f s kvs).1 ≠ kvRetry) :
  (f s kvs).1 = -1 ↔ accepted (.putbatch kvs, (f s kvs).1) = false
  := by
  rcases hw.putbatch_code f hf s kvs with hcode | hcode | hcode
  · simp [accepted, hcode]
  · simp [accepted, hcode]
  · exact absurd hcode hne

/-- The code of a batch of deletes that the engine took tells whether it failed. -/
theorem KvBackend.Writes.delbatch_failed {f : S → List Bytes → ℤ × S} (hf : f ∈ be.delbatch)
    (s : S) (ks : List Bytes) (hne : (f s ks).1 ≠ kvRetry) :
  (f s ks).1 = -1 ↔ accepted (.delbatch ks, (f s ks).1) = false
  := by
  rw [accepted, decide_eq_false_iff_not, not_le]
  rcases hw.delbatch_code f hf s ks with hcode | hcode | hcode
  · omega
  · omega
  · exact absurd hcode hne

/-- `store_put` drives its write to one outcome. -/
theorem storePut_logged (sl : S × List Attempt) (k v : Bytes) :
  Outcome contents apply (.put k v) sl (storePut be.logged h.logged sl k v) ∧
    ((storePut be.logged h.logged sl k v).1, (storePut be.logged h.logged sl k v).2.1)
      = storePut be h sl.1 k v
  := by
  apply settle_logged (fun s => hw.put s k v) (h.put sl.1 k v) sl.2

/-- `store_del` drives its write to one outcome. -/
theorem storeDel_logged (sl : S × List Attempt) (k : Bytes) :
  Outcome contents apply (.del k) sl (storeDel be.logged h.logged sl k) ∧
    ((storeDel be.logged h.logged sl k).1, (storeDel be.logged h.logged sl k).2.1)
      = storeDel be h sl.1 k
  := by
  apply settle_logged (fun s => hw.del s k) (h.del sl.1 k) sl.2

/-- `store_putbatch` serves its batch. -/
theorem storePutbatch_logged (sl : S × List Attempt) (kvs : List (Bytes × Bytes)) :
  BatchServed contents apply (KvRequest.calls be (.putbatch kvs)) sl
      (storePutbatch be.logged h.logged sl kvs) ∧
    ((storePutbatch be.logged h.logged sl kvs).1, (storePutbatch be.logged h.logged sl kvs).2.1)
      = storePutbatch be h sl.1 kvs
  := by
  cases hf : be.putbatch with
  | some f =>
    have hf' : be.logged.putbatch
        = some (fun sl kvs => logged (.putbatch kvs) (fun s => f s kvs) sl) := by
      rw [KvBackend.logged, hf, Option.map_some]
    rw [storePutbatch_of_some h hf, storePutbatch_of_some h.logged hf', KvRequest.calls, hf,
      Option.isSome_some, if_pos rfl]
    apply settle_served (fun s => hw.putbatch f hf s kvs) (fun s => hw.putbatch_failed hf s kvs)
  | none =>
    have hf' : be.logged.putbatch = none := by
      rw [KvBackend.logged, hf, Option.map_none]
    rw [storePutbatch_of_none h hf, storePutbatch_of_none h.logged hf', KvRequest.calls, hf,
      Option.isSome_none, if_neg Bool.false_ne_true]
    have hone := fun sl (kv : Bytes × Bytes) => storePut_logged h hw sl kv.1 kv.2
    have hfailed : ∀ (kv : Bytes × Bytes) (rc : ℤ),
        decide (rc ≠ 0) = !accepted (.put kv.1 kv.2, rc) := by
      intro kv rc
      simp [accepted]
    obtain ⟨hout, hsame⟩ := batchLoop_logged (fun s kv => storePut be h s kv.1 kv.2)
      (fun sl kv => storePut be.logged h.logged sl kv.1 kv.2) hone hfailed kvs 0 sl
    exact ⟨hout.served, hsame⟩

/-- `store_delbatch` serves its batch. -/
theorem storeDelbatch_logged (sl : S × List Attempt) (ks : List Bytes) :
  BatchServed contents apply (KvRequest.calls be (.delbatch ks)) sl
      (storeDelbatch be.logged h.logged sl ks) ∧
    ((storeDelbatch be.logged h.logged sl ks).1, (storeDelbatch be.logged h.logged sl ks).2.1)
      = storeDelbatch be h sl.1 ks
  := by
  cases hf : be.delbatch with
  | some f =>
    have hf' : be.logged.delbatch
        = some (fun sl ks => logged (.delbatch ks) (fun s => f s ks) sl) := by
      rw [KvBackend.logged, hf, Option.map_some]
    rw [storeDelbatch_of_some h hf, storeDelbatch_of_some h.logged hf', KvRequest.calls, hf,
      Option.isSome_some, if_pos rfl]
    apply settle_served (fun s => hw.delbatch f hf s ks) (fun s => hw.delbatch_failed hf s ks)
  | none =>
    have hf' : be.logged.delbatch = none := by
      rw [KvBackend.logged, hf, Option.map_none]
    rw [storeDelbatch_of_none h hf, storeDelbatch_of_none h.logged hf', KvRequest.calls, hf,
      Option.isSome_none, if_neg Bool.false_ne_true]
    have hfailed : ∀ (k : Bytes) (rc : ℤ), decide (rc < 0) = !accepted (.del k, rc) := by
      intro k rc
      rw [accepted, ← decide_not, decide_eq_decide, not_le]
    obtain ⟨hout, hsame⟩ := batchLoop_logged (storeDel be h) (storeDel be.logged h.logged)
      (storeDel_logged h hw) hfailed ks 0 sl
    exact ⟨hout.served, hsame⟩

/-- The store drives each call of a request, in order, to exactly one outcome, never answers
`kvRetry`, and changes the contents by the accepted writes, once each and in order.  The code of
a batch is `-1` exactly when a call failed hard, and that of another request is the outcome. -/
theorem storeRequest_spec (s : S) (q : KvRequest) :
  ∃ rc s' log, storeRequest be h s q = (rc, s') ∧
    storeRequest be.logged h.logged (s, []) q = (rc, s', log) ∧
    Driven (q.calls be) log ∧ rc ≠ kvRetry ∧ contents s' = landed apply (contents s) log ∧
    if q.isBatch then (rc = -1 ↔ ∃ a ∈ log, FailedHard a) else (q, rc) ∈ log
  := by
  cases q with
  | put k v =>
    obtain ⟨⟨log, hlog, hserves, hne, hmem, -⟩, hsame⟩ := storePut_logged h hw (s, []) k v
    refine ⟨_, _, log, hsame.symm, ?_, hserves.driven, hne, hserves.landed, hmem⟩
    rw [storeRequest, ← List.nil_append log, ← hlog]
  | putbatch kvs =>
    obtain ⟨⟨log, hlog, hserves, hne, hcode⟩, hsame⟩ := storePutbatch_logged h hw (s, []) kvs
    refine ⟨_, _, log, hsame.symm, ?_, hserves.driven, hne, hserves.landed, hcode⟩
    rw [storeRequest, ← List.nil_append log, ← hlog]
  | del k =>
    obtain ⟨⟨log, hlog, hserves, hne, hmem, -⟩, hsame⟩ := storeDel_logged h hw (s, []) k
    refine ⟨_, _, log, hsame.symm, ?_, hserves.driven, hne, hserves.landed, hmem⟩
    rw [storeRequest, ← List.nil_append log, ← hlog]
  | delbatch ks =>
    obtain ⟨⟨log, hlog, hserves, hne, hcode⟩, hsame⟩ := storeDelbatch_logged h hw (s, []) ks
    refine ⟨_, _, log, hsame.symm, ?_, hserves.driven, hne, hserves.landed, hcode⟩
    rw [storeRequest, ← List.nil_append log, ← hlog]

end Requests

/-! ## An engine that stalls -/

/-- A write of an engine that stalls before every write: it fails, or it is done. -/
def stalled (q : KvRequest) (fails : Bool) (done : ℤ) (s : Bool × List KvWrite) :
    ℤ × Bool × List KvWrite :=
  if s.1 then (kvRetry, false, s.2)
  else if fails then (-1, true, s.2)
  else (done, true, s.2 ++ q.writes)

/-- An engine that stalls before every write and fails on the empty key.  It takes batches or
not. -/
def stalling (batches : Bool) : KvBackend (Bool × List KvWrite) where
  get s _ := (0, [], s)
  range _ _ _ _ _ st := (0, st)
  range_calls _ _ _ _ _ _ := ⟨[], rfl⟩
  put s k v := stalled (.put k v) (k = []) 0 s
  putbatch :=
    if batches then some fun s kvs => stalled (.putbatch kvs) (kvs.any fun kv => kv.1 = []) 0 s
    else none
  del s k := stalled (.del k) (k = []) 1 s
  delbatch :=
    if batches then some fun s ks => stalled (.delbatch ks) (ks.any fun k => k = []) ks.length s
    else none

section Stalled

variable {q : KvRequest} {fails : Bool} {done : ℤ} (s : Bool × List KvWrite)

/-- The second attempt is no retry. -/
theorem stalled_settles (hdone : done ≠ kvRetry) :
  Retry.Settles kvRetry (stalled q fails done) s
  := by
  have hfail : (-1 : ℤ) ≠ kvRetry := by decide
  obtain ⟨stall, ws⟩ := s
  use 2
  cases stall
  · rw [Retry.loop_of_ne (by cases fails; exacts [hdone, hfail])]
    rfl
  · have hagain : (stalled q fails done (true, ws)).1 = kvRetry := rfl
    rw [Retry.loop_of_again hagain, Retry.loop_of_ne (by cases fails; exacts [hdone, hfail])]
    rfl

/-- The writes are noted when the attempt is accepted. -/
theorem stalled_lands (hdone : accepted (q, done) = true) :
  (stalled q fails done s).2.2
    = landed (fun ws w => ws ++ [w]) s.2 [(q, (stalled q fails done s).1)]
  := by
  have hfail : accepted (q, -1) = false := by cases q <;> rfl
  obtain ⟨stall, ws⟩ := s
  cases stall
  · cases fails
    · simp [stalled, landed, hdone, ← List.flatMap_def]
    · simp [stalled, landed, hfail]
  · simp [stalled, landed, accepted_retry]

/-- The codes of a write. -/
theorem stalled_code (q : KvRequest) (fails : Bool) (done : ℤ) :
  (stalled q fails done s).1 = done ∨ (stalled q fails done s).1 = -1 ∨
    (stalled q fails done s).1 = kvRetry
  := by
  obtain ⟨stall, ws⟩ := s
  cases stall
  · cases fails
    · exact .inl rfl
    · exact .inr (.inl rfl)
  · exact .inr (.inr rfl)

end Stalled

/-- The batch operations of an engine that takes batches. -/
theorem mem_of_batches {α : Type} {batches : Bool} {f op : α}
    (h : f ∈ if batches then some op else none) :
  f = op
  := by
  cases batches with
  | false => cases h
  | true => exact (Option.some.inj h).symm

theorem stalling_settles (batches : Bool) :
  (stalling batches).Settles
  := by
  constructor
  case put => exact fun s k v => stalled_settles s (by decide)
  case del => exact fun s k => stalled_settles s (by decide)
  case putbatch =>
    intro f hf s kvs
    obtain rfl := mem_of_batches hf
    apply stalled_settles s (by decide)
  case delbatch =>
    intro f hf s ks
    obtain rfl := mem_of_batches hf
    apply stalled_settles s
    rw [kvRetry]
    omega

theorem stalling_writes (batches : Bool) :
  (stalling batches).Writes Prod.snd (fun ws w => ws ++ [w])
  := by
  constructor
  case put => exact fun s k v => stalled_lands s rfl
  case del => exact fun s k => stalled_lands s rfl
  case putbatch =>
    intro f hf s kvs
    obtain rfl := mem_of_batches hf
    apply stalled_lands s rfl
  case delbatch =>
    intro f hf s ks
    obtain rfl := mem_of_batches hf
    apply stalled_lands s
    rw [accepted, decide_eq_true_eq]
    apply Int.natCast_nonneg
  case putbatch_code =>
    intro f hf s kvs
    obtain rfl := mem_of_batches hf
    apply stalled_code
  case delbatch_code =>
    intro f hf s ks
    obtain rfl := mem_of_batches hf
    rcases stalled_code s (.delbatch ks) (ks.any fun k => k = []) ks.length with hcode | hcode
    · left
      rw [hcode]
      apply Int.natCast_nonneg
    · exact .inr hcode

/-- `storeRequest_spec` for a batch of puts of which the second fails, on an engine that takes no
batches, and for a batch of deletes on one that does. -/
theorem storeRequest_spec_example :
  (∃ rc s' log,
    storeRequest (stalling false) (stalling_settles false) (true, [])
      (.putbatch [([1], [2]), ([], [3]), ([1], [4])]) = (rc, s') ∧
    storeRequest (stalling false).logged (stalling_settles false).logged ((true, []), [])
      (.putbatch [([1], [2]), ([], [3]), ([1], [4])]) = (rc, s', log) ∧
    Driven [.put [1] [2], .put [] [3], .put [1] [4]] log ∧ rc ≠ kvRetry ∧
    s'.2 = landed (fun ws w => ws ++ [w]) [] log ∧ (rc = -1 ↔ ∃ a ∈ log, FailedHard a)) ∧
  ∃ rc s' log,
    storeRequest (stalling true) (stalling_settles true) (true, []) (.delbatch [[1], [2], [1]])
      = (rc, s') ∧
    storeRequest (stalling true).logged (stalling_settles true).logged ((true, []), [])
      (.delbatch [[1], [2], [1]]) = (rc, s', log) ∧
    Driven [.delbatch [[1], [2], [1]]] log ∧ rc ≠ kvRetry ∧
    s'.2 = landed (fun ws w => ws ++ [w]) [] log ∧ (rc = -1 ↔ ∃ a ∈ log, FailedHard a)
  := ⟨storeRequest_spec (stalling_settles false) (stalling_writes false) (true, [])
      (.putbatch [([1], [2]), ([], [3]), ([1], [4])]),
    storeRequest_spec (stalling_settles true) (stalling_writes true) (true, [])
      (.delbatch [[1], [2], [1]])⟩

end Keybench
