import Keybench.Engine.TidesdbCalls
import Keybench.Lib.Lifetime

/-!
# The brackets of the TidesDB engine

`TdbCall.touches` says what a call does to the handles of TidesDB: to transactions, to
iterators and to the buffers of keys and values.  Whatever TidesDB answers, every operation
frees each handle once, uses none that it has freed, frees the buffers of a row before the
next step of the iterator and the iterator before its transaction; it commits at most once, after
all its elements have succeeded, and succeeds exactly when the commit does (`TdbOp.run_spec`).
-/

namespace Keybench

open Lifetime (Touch)

/-! ## Handles -/

/-- The handles of TidesDB. -/
inductive TdbHandle (Txn It Ptr : Type) where
  | txn (t : Txn)
  | iter (it : It)
  | buf (p : Ptr)
deriving DecidableEq

variable {W D Cf Txn It Ptr σ : Type}

namespace TdbHandle

/-- Whether a handle is an iterator. -/
@[simp]
def isIter : TdbHandle Txn It Ptr → Bool
  | .iter _ => true
  | _ => false

/-- Whether a handle is a buffer. -/
@[simp]
def isBuf : TdbHandle Txn It Ptr → Bool
  | .buf _ => true
  | _ => false

end TdbHandle

/-- What a call does to the handles.  No buffer may be live at a call on the iterator, and no
iterator when a transaction is freed. -/
@[simp]
def TdbCall.touches : TdbCall Txn It Ptr → List (Touch (TdbHandle Txn It Ptr))
  | .txnBegin rc txn => if rc = tdbSuccess then [.acquire (.txn txn)] else []
  | .txnWrite txn _ _ => [.use (.txn txn)]
  | .txnGet txn rc val =>
    .use (.txn txn) :: if rc = tdbSuccess then val.toList.map (fun p => .acquire (.buf p)) else []
  | .txnCommit txn _ => [.use (.txn txn)]
  | .txnFree txn => [.quiet TdbHandle.isIter, .release (.txn txn)]
  | .iterNew txn rc it =>
    .use (.txn txn) :: if rc = tdbSuccess then [.acquire (.iter it)] else []
  | .iterSeek it => [.use (.iter it)]
  | .iterValid it => [.quiet TdbHandle.isBuf, .use (.iter it)]
  | .iterKeyValue it rc k v =>
    .quiet TdbHandle.isBuf :: .use (.iter it) ::
      if rc = tdbSuccess then [.acquire (.buf k), .acquire (.buf v)] else []
  | .read ps => ps.map (fun p => .use (.buf p))
  | .iterNext it _ => [.quiet TdbHandle.isBuf, .use (.iter it)]
  | .iterFree it => [.quiet TdbHandle.isBuf, .release (.iter it)]
  | .free p => [.release (.buf p)]

/-- The touches of a run. -/
def TdbRun.touches (r : TdbRun W Txn It Ptr) : List (Touch (TdbHandle Txn It Ptr)) :=
  r.calls.flatMap TdbCall.touches

variable [DecidableEq Txn] [DecidableEq It] [DecidableEq Ptr]

/-- The handles that are live after a run. -/
def TdbRun.Live (r : TdbRun W Txn It Ptr) (live : List (TdbHandle Txn It Ptr)) : Prop :=
  Lifetime.run [] r.touches = some live

/-- The handles after a call. -/
theorem TdbRun.Live.note {r : TdbRun W Txn It Ptr} {live live' : List (TdbHandle Txn It Ptr)}
    (h : r.Live live) {c : TdbCall Txn It Ptr} (hc : Lifetime.run live c.touches = some live')
    (w : W) :
  (r.note w c).Live live'
  := by
  have htouches : (r.note w c).touches = r.touches ++ c.touches := by
    rw [touches, note_calls, List.flatMap_append, List.flatMap_singleton, touches]
  rw [Live, htouches, Lifetime.run_append_of h]
  apply hc

/-! ## Writing -/

/-- A call that wrote an element, and the element. -/
def TdbCall.done : TdbCall Txn It Ptr → Option KvWrite
  | .txnWrite _ w rc => if rc = tdbSuccess then some w else none
  | _ => none

/-- Whether a call is a commit. -/
def TdbCall.isCommit : TdbCall Txn It Ptr → Bool
  | .txnCommit _ _ => true
  | _ => false

/-- The calls of a transaction of some writes, and its code. -/
inductive WriteTrace (ws : List KvWrite) : List (TdbCall Txn It Ptr) → ℤ → Prop where
  /-- The transaction does not begin. -/
  | refused {rc : ℤ} (txn : Txn) (h : rc ≠ tdbSuccess) : WriteTrace ws [.txnBegin rc txn] rc
  /-- An element fails. -/
  | failed {rc : ℤ} (txn : Txn) {done rest : List KvWrite} {w : KvWrite} (h : rc ≠ tdbSuccess)
      (hws : ws = done ++ w :: rest) :
      WriteTrace ws (.txnBegin tdbSuccess txn :: (done.map (fun w => .txnWrite txn w tdbSuccess)
        ++ [.txnWrite txn w rc, .txnFree txn])) rc
  /-- The transaction is committed, which may fail. -/
  | committed {rc : ℤ} (txn : Txn) :
      WriteTrace ws (.txnBegin tdbSuccess txn :: (ws.map (fun w => .txnWrite txn w tdbSuccess)
        ++ [.txnCommit txn rc, .txnFree txn])) rc

section Writing

variable (E : TidesdbEngine W D Cf Txn It Ptr) (t : Tdb D Cf)

omit [DecidableEq Txn] [DecidableEq It] [DecidableEq Ptr]

/-- The loop of a write has written all elements, or a part of them and failed at the next. -/
theorem tdbElements_calls (txn : Txn) (ws : List KvWrite) (r : TdbRun W Txn It Ptr) :
  ∃ calls, (tdbElements E t txn ws tdbSuccess r).2.calls = r.calls ++ calls ∧
    (((tdbElements E t txn ws tdbSuccess r).1 = tdbSuccess ∧
        calls = ws.map (fun w => .txnWrite txn w tdbSuccess)) ∨
      ((tdbElements E t txn ws tdbSuccess r).1 ≠ tdbSuccess ∧
        ∃ done w rest, ws = done ++ w :: rest ∧
          calls = done.map (fun w => .txnWrite txn w tdbSuccess)
            ++ [.txnWrite txn w (tdbElements E t txn ws tdbSuccess r).1]))
  := by
  induction ws generalizing r with
  | nil =>
    use []
    exact ⟨(List.append_nil _).symm, Or.inl ⟨rfl, rfl⟩⟩
  | cons w ws ih =>
    obtain ⟨rc, world, hcall⟩ : ∃ rc world, E.txnWrite t r.world txn w = (rc, world) :=
      ⟨_, _, rfl⟩
    rw [tdbElements, if_pos rfl]
    simp only [hcall]
    by_cases hrc : rc = tdbSuccess
    · subst hrc
      obtain ⟨calls, hcalls, hcases⟩ := ih (r.note world (.txnWrite txn w tdbSuccess))
      use .txnWrite txn w tdbSuccess :: calls
      constructor
      · rw [hcalls, TdbRun.note, List.append_assoc, List.singleton_append]
      · rcases hcases with ⟨hok, hcalls⟩ | ⟨hne, done, w', rest, hws, hcalls⟩
        · left
          rw [hcalls, List.map_cons]
          exact ⟨hok, rfl⟩
        · right
          refine ⟨hne, w :: done, w', rest, ?_, ?_⟩
          · rw [hws, List.cons_append]
          · rw [hcalls, List.map_cons, List.cons_append]
    · have hstop : ∀ (ws : List KvWrite) (r : TdbRun W Txn It Ptr),
          tdbElements E t txn ws rc r = (rc, r) := by
        intro ws r
        cases ws with
        | nil => rfl
        | cons w ws => rw [tdbElements, if_neg hrc]
      rw [hstop]
      use [.txnWrite txn w rc], rfl
      right
      exact ⟨hrc, [], w, ws, rfl, rfl⟩

/-- The calls of a transaction of some writes. -/
theorem tdbWrite_calls (ws : List KvWrite) (r : TdbRun W Txn It Ptr) :
  ∃ calls, (tdbWrite E t ws r).2.calls = r.calls ++ calls ∧
    WriteTrace ws calls (tdbWrite E t ws r).1
  := by
  obtain ⟨rc, txn, world, hbegin⟩ : ∃ rc txn world, E.txnBegin r.world t.db = (rc, txn, world) :=
    ⟨_, _, _, rfl⟩
  simp only [tdbWrite, hbegin]
  by_cases hrc : rc = tdbSuccess
  · subst hrc
    rw [if_pos rfl]
    obtain ⟨calls, hcalls, hcases⟩ :=
      tdbElements_calls E t txn ws (r.note world (.txnBegin tdbSuccess txn))
    rcases hcases with ⟨hok, heq⟩ | ⟨hne, done, w, rest, hws, heq⟩
    · simp only [hok, if_true]
      refine ⟨_, ?_, WriteTrace.committed txn⟩
      simp only [TdbRun.note_calls] at hcalls ⊢
      rw [hcalls, heq]
      simp
    · simp only [hne, if_false]
      refine ⟨_, ?_, WriteTrace.failed txn hne hws⟩
      simp only [TdbRun.note_calls] at hcalls ⊢
      rw [hcalls, heq]
      simp
  · rw [if_neg hrc]
    exact ⟨_, rfl, WriteTrace.refused txn hrc⟩

end Writing

/-- The handles after calls that follow a run. -/
theorem TdbRun.Live.append {r r' : TdbRun W Txn It Ptr} {live live' : List (TdbHandle Txn It Ptr)}
    (h : r.Live live) {calls : List (TdbCall Txn It Ptr)} (hr : r'.calls = r.calls ++ calls)
    (hcalls : Lifetime.run live (calls.flatMap TdbCall.touches) = some live') :
  r'.Live live'
  := by
  have htouches : r'.touches = r.touches ++ calls.flatMap TdbCall.touches := by
    rw [touches, hr, List.flatMap_append, touches]
  rw [Live, htouches, Lifetime.run_append_of h]
  apply hcalls

/-- Elements are written while their transaction is live. -/
theorem run_elements (txn : Txn) (ws : List KvWrite) (us : List (Touch (TdbHandle Txn It Ptr))) :
  Lifetime.run [.txn txn]
      ((ws.map (fun w => .txnWrite txn w tdbSuccess)).flatMap TdbCall.touches ++ us)
    = Lifetime.run [.txn txn] us
  := by
  induction ws with
  | nil => rfl
  | cons w ws ih =>
    rw [List.map_cons, List.flatMap_cons, List.append_assoc, TdbCall.touches,
      List.singleton_append, Lifetime.run, Lifetime.step, if_pos List.mem_cons_self,
      Option.bind_some, ih]

/-- A transaction of some writes leaves no handle live. -/
theorem WriteTrace.live {ws : List KvWrite} {calls : List (TdbCall Txn It Ptr)} {rc : ℤ}
    (h : WriteTrace ws calls rc) :
  Lifetime.run [] (calls.flatMap TdbCall.touches) = some []
  := by
  cases h with
  | refused txn h => simp [h]
  | failed txn h hws =>
    rw [List.flatMap_cons, List.flatMap_append, TdbCall.touches, if_pos rfl, List.singleton_append,
      Lifetime.run, Lifetime.step, Option.bind_some, run_elements]
    simp
  | committed txn =>
    rw [List.flatMap_cons, List.flatMap_append, TdbCall.touches, if_pos rfl, List.singleton_append,
      Lifetime.run, Lifetime.step, Option.bind_some, run_elements]
    simp

/-! ## Commits -/

/-- Whether a call is an element that failed. -/
def TdbCall.isFailedElement : TdbCall Txn It Ptr → Bool
  | .txnWrite _ _ rc => rc ≠ tdbSuccess
  | _ => false

/-- The calls of an operation that writes `ws` commit at most once, after all of `ws` has been
written, and not when an element has failed.  An operation that does not write commits
nothing. -/
structure Commits (ws : Option (List KvWrite)) (calls : List (TdbCall Txn It Ptr)) : Prop where
  once : calls.countP TdbCall.isCommit ≤ 1
  complete : ∀ before c after, calls = before ++ c :: after → c.isCommit = true →
    ws = some (before.filterMap TdbCall.done)
  failed : ∀ c ∈ calls, c.isFailedElement = true → calls.countP TdbCall.isCommit = 0

omit [DecidableEq Txn] [DecidableEq It] [DecidableEq Ptr] in
/-- Calls without a commit. -/
theorem Commits.of_none {calls : List (TdbCall Txn It Ptr)} (ws : Option (List KvWrite))
    (h : calls.countP TdbCall.isCommit = 0) :
  Commits ws calls
  := by
  constructor
  case once => rw [h]; apply Nat.zero_le
  case complete =>
    rintro before c after rfl hc
    rw [List.countP_append, List.countP_cons_of_pos hc] at h
    omega
  case failed => exact fun _ _ _ => h

/-- The only place where a predicate holds in a list. -/
theorem eq_of_append_cons {α : Type} {p : α → Bool} {a b before after : List α} {c d : α}
    (ha : ∀ x ∈ a, p x = false) (hb : ∀ x ∈ b, p x = false) (hc : p c = true)
    (h : a ++ d :: b = before ++ c :: after) :
  before = a
  := by
  induction a generalizing before with
  | nil =>
    cases before with
    | nil => rfl
    | cons x before =>
      have hmem : c ∈ b := by
        rw [(List.cons.inj h).2]
        simp
      rw [hb c hmem] at hc
      cases hc
  | cons x a ih =>
    cases before with
    | nil =>
      rw [← (List.cons.inj h).1, ha x List.mem_cons_self] at hc
      cases hc
    | cons y before =>
      obtain ⟨rfl, hrest⟩ := List.cons.inj h
      rw [ih (fun x hx => ha x (List.mem_cons_of_mem _ hx)) hrest]

variable (It Ptr) in
omit [DecidableEq Txn] [DecidableEq It] [DecidableEq Ptr] in
/-- The elements before a commit. -/
theorem elements_before (txn : Txn) (ws : List KvWrite) :
  (∀ c ∈ (TdbCall.txnBegin tdbSuccess txn ::
      ws.map (fun w => TdbCall.txnWrite txn w tdbSuccess) : List (TdbCall Txn It Ptr)),
      c.isCommit = false ∧ c.isFailedElement = false) ∧
    (TdbCall.txnBegin tdbSuccess txn ::
      ws.map (fun w => TdbCall.txnWrite txn w tdbSuccess) : List (TdbCall Txn It Ptr)).filterMap
        TdbCall.done = ws
  := by
  constructor
  · intro c hc
    rcases List.mem_cons.mp hc with rfl | hc
    · exact ⟨rfl, rfl⟩
    · obtain ⟨w, -, rfl⟩ := List.mem_map.mp hc
      exact ⟨rfl, by simp [TdbCall.isFailedElement]⟩
  · rw [List.filterMap_cons_none rfl, List.filterMap_map]
    have hdone : (TdbCall.done ∘ fun w => (TdbCall.txnWrite txn w tdbSuccess : TdbCall Txn It Ptr))
        = some := by
      funext w
      rw [Function.comp_apply, TdbCall.done, if_pos rfl]
    rw [hdone, List.filterMap_some]

variable (It Ptr) in
omit [DecidableEq Txn] [DecidableEq It] [DecidableEq Ptr] in
/-- No commit comes before the elements. -/
theorem countP_elements (txn : Txn) (ws : List KvWrite) :
  (TdbCall.txnBegin tdbSuccess txn ::
    ws.map (fun w => TdbCall.txnWrite txn w tdbSuccess) : List (TdbCall Txn It Ptr)).countP
      TdbCall.isCommit = 0
  := by
  rw [List.countP_eq_zero]
  intro c hc
  rw [((elements_before It Ptr txn ws).1 c hc).1]
  apply Bool.false_ne_true

omit [DecidableEq Txn] [DecidableEq It] [DecidableEq Ptr] in
/-- A transaction of some writes commits once, when all are done. -/
theorem WriteTrace.commits {ws : List KvWrite} {calls : List (TdbCall Txn It Ptr)} {rc : ℤ}
    (h : WriteTrace ws calls rc) :
  Commits (some ws) calls ∧ (rc = tdbSuccess ↔ ∃ txn, TdbCall.txnCommit txn tdbSuccess ∈ calls)
  := by
  cases h with
  | refused txn h =>
    constructor
    · apply Commits.of_none
      rfl
    · simp [h]
  | failed txn h hws =>
    constructor
    · apply Commits.of_none
      rw [← List.cons_append, List.countP_append, countP_elements]
      rfl
    · simp [h]
  | committed txn =>
    obtain ⟨hbefore, hdone⟩ := elements_before It Ptr txn ws
    rw [← List.cons_append]
    constructor
    · constructor
      case once =>
        rw [List.countP_append, countP_elements, Nat.zero_add]
        apply le_refl
      case complete =>
        intro before c after heq hc
        have hafter : ∀ x ∈ [(TdbCall.txnFree txn : TdbCall Txn It Ptr)], x.isCommit = false :=
          List.forall_mem_singleton.mpr rfl
        rw [eq_of_append_cons (fun x hx => (hbefore x hx).1) hafter hc heq, hdone]
      case failed =>
        intro c hc hfail
        rcases List.mem_append.mp hc with hc | hc
        · rw [(hbefore c hc).2] at hfail
          cases hfail
        · simp only [List.mem_cons, List.not_mem_nil, or_false] at hc
          rcases hc with rfl | rfl <;> cases hfail
    · constructor
      · rintro rfl
        use txn
        simp
      · rintro ⟨txn', hmem⟩
        rcases List.mem_append.mp hmem with hmem | hmem
        · have hfalse := (hbefore _ hmem).1
          cases hfalse
        · simp only [List.mem_cons, TdbCall.txnCommit.injEq, List.not_mem_nil, or_false,
            reduceCtorEq] at hmem
          apply hmem.2.symm

/-! ## Reading -/

/-- A run that has gone on from another without a commit, and the handles that are live. -/
structure Reading (r₀ r : TdbRun W Txn It Ptr) (live : List (TdbHandle Txn It Ptr)) : Prop where
  live : r.Live live
  calls : ∃ calls, r.calls = r₀.calls ++ calls ∧ calls.countP TdbCall.isCommit = 0

/-- A run that has not gone on. -/
theorem Reading.refl {r : TdbRun W Txn It Ptr} {live : List (TdbHandle Txn It Ptr)}
    (h : r.Live live) :
  Reading r r live
  := ⟨h, [], (List.append_nil _).symm, rfl⟩

/-- A call that is no commit. -/
theorem Reading.note {r₀ r : TdbRun W Txn It Ptr} {live : List (TdbHandle Txn It Ptr)}
    (h : Reading r₀ r live) (c : TdbCall Txn It Ptr) (live' : List (TdbHandle Txn It Ptr))
    (hc : Lifetime.run live c.touches = some live') (w : W) (hcommit : c.isCommit = false) :
  Reading r₀ (r.note w c) live'
  := by
  obtain ⟨calls, hcalls, hnone⟩ := h.calls
  constructor
  case live => apply h.live.note hc w
  case calls =>
    use calls ++ [c]
    constructor
    · rw [TdbRun.note_calls, hcalls, List.append_assoc]
    · rw [List.countP_append, hnone, List.countP_singleton, hcommit]
      rfl

section Reading

variable (E : TidesdbEngine W D Cf Txn It Ptr) (t : Tdb D Cf)

/-- `tdb_get` leaves no handle live. -/
theorem tdbGet_reading (k : Bytes) {r : TdbRun W Txn It Ptr} (h : r.Live []) :
  Reading r (tdbGet E t k r).2.2 []
  := by
  obtain ⟨rc, txn, world, hbegin⟩ : ∃ rc txn world, E.txnBegin r.world t.db = (rc, txn, world) :=
    ⟨_, _, _, rfl⟩
  simp only [tdbGet, hbegin]
  by_cases hrc : rc = tdbSuccess
  · subst hrc
    rw [if_neg (not_not.mpr rfl)]
    have hb : Reading r (r.note world (.txnBegin tdbSuccess txn)) [.txn txn] :=
      (Reading.refl h).note _ _ rfl world rfl
    obtain ⟨rc, val, world', hget⟩ : ∃ rc val world', E.txnGet world txn t.cf k
        = (rc, val, world') := ⟨_, _, _, rfl⟩
    simp only [TdbRun.note_world, hget]
    by_cases hrc : rc = tdbSuccess
    · subst hrc
      cases val with
      | none =>
        have hg := hb.note (.txnGet txn tdbSuccess none) [.txn txn]
          (by simp) world' rfl
        have hf := hg.note (.txnFree txn) []
          (by simp)
          (E.txnFree world' txn) rfl
        dsimp only
        split_ifs
        · apply hf
        · apply hf
      | some buf =>
        have hg := hb.note (.txnGet txn tdbSuccess (some buf.1))
          [.buf buf.1, .txn txn]
          (by simp) world' rfl
        have hf := hg.note (.txnFree txn) [.buf buf.1]
          (by simp)
          (E.txnFree world' txn) rfl
        have hr := hf.note (.read [buf.1]) [.buf buf.1]
          (by simp) (E.txnFree world' txn) rfl
        dsimp only
        rw [if_pos rfl]
        refine hr.note _ _ ?_ _ rfl
        simp
    · have hg := hb.note (.txnGet txn rc (val.map Prod.fst)) [.txn txn]
        (by simp [hrc]) world' rfl
      have hf := hg.note (.txnFree txn) []
        (by simp)
        (E.txnFree world' txn) rfl
      cases val with
      | none =>
        dsimp only
        split_ifs
        · apply hf
        · apply hf
      | some buf =>
        dsimp only
        rw [if_neg hrc]
        split_ifs
        · apply hf
        · apply hf
  · rw [if_pos hrc]
    refine (Reading.refl h).note _ _ ?_ world rfl
    rw [TdbCall.touches, if_neg hrc]
    rfl

/-- A row of `tdb_range` frees its key and its value, and nothing else. -/
theorem tdbRow_reading (hi : Bytes) (cb : TdbCallback W σ) (k v : TdbBuf Ptr) (n : ℤ) (st : σ)
    {r₀ r : TdbRun W Txn It Ptr} {live : List (TdbHandle Txn It Ptr)}
    (h : Reading r₀ r (.buf v.1 :: .buf k.1 :: live)) :
  Reading r₀ (tdbRow E hi cb k v n st r).2.2.2 live
  := by
  -- the key and the value may have one address
  have hfree : ∀ {r : TdbRun W Txn It Ptr}, Reading r₀ r (.buf v.1 :: .buf k.1 :: live) →
      ∀ w w', Reading r₀ ((r.note w (.free k.1)).note w' (.free v.1)) live := by
    intro r h w w'
    have hk := h.note (.free k.1) (.buf v.1 :: live) (by
      by_cases hvk : v.1 = k.1
      · simp [hvk]
      · simp [hvk]) w rfl
    refine hk.note _ _ ?_ w' rfl
    simp
  have hr := h.note (.read [k.1]) (.buf v.1 :: .buf k.1 :: live)
    (by simp) r.world rfl
  simp only [tdbRow]
  split_ifs
  · apply hfree hr
  · apply hfree
    refine hr.note _ _ ?_ _ rfl
    simp

/-- The loop of `tdb_range` leaves its iterator and transaction live, and nothing else. -/
theorem tdbRows_reading (hi : Bytes) (limit : ℤ) (cb : TdbCallback W σ) (it : It) (txn : Txn)
    (r₀ : TdbRun W Txn It Ptr) :
  ∀ (fuel : ℕ) (n : ℤ) (st : σ) (r : TdbRun W Txn It Ptr), Reading r₀ r [.iter it, .txn txn] →
    Reading r₀ (tdbRows E hi limit cb it fuel n st r).2 [.iter it, .txn txn]
  | 0, _, _, _, h => h
  | fuel + 1, n, st, r, h => by
    obtain ⟨valid, world, hvalid⟩ : ∃ valid world, E.iterValid r.world it = (valid, world) :=
      ⟨_, _, rfl⟩
    obtain ⟨rc, k, v, world', hrow⟩ : ∃ rc k v world', E.iterKeyValue world it
        = (rc, k, v, world') := ⟨_, _, _, _, rfl⟩
    have hv := h.note (.iterValid it) [.iter it, .txn txn]
      (by simp) world rfl
    rw [tdbRows]
    simp only [hvalid, TdbRun.note_world, hrow]
    by_cases hcond : valid = true ∧ (limit ≤ 0 ∨ n < limit)
    · rw [if_pos hcond]
      by_cases hrc : rc = tdbSuccess
      · subst hrc
        have hk := hv.note (.iterKeyValue it tdbSuccess k.1 v.1)
          [.buf v.1, .buf k.1, .iter it, .txn txn]
          (by simp) world' rfl
        have hfreed := tdbRow_reading E hi cb k v n st hk
        rw [if_neg (not_not.mpr rfl)]
        split_ifs
        · apply hfreed
        · refine hfreed.note _ _ ?_ _ rfl
          simp
        · apply tdbRows_reading
          refine hfreed.note _ _ ?_ _ rfl
          simp
      · -- the row cannot be read
        rw [if_pos hrc]
        refine hv.note _ _ ?_ world' rfl
        simp [hrc]
    · rw [if_neg hcond]
      apply hv

/-- `tdb_range` leaves no handle live when it ends. -/
theorem tdbRangeCalls_reading (fuel : ℕ) (lo hi : Bytes) (limit : ℤ) (cb : TdbCallback W σ) (st : σ)
    {r : TdbRun W Txn It Ptr} (h : r.Live []) :
  ∃ live, Reading r (tdbRangeCalls E t fuel lo hi limit cb st r).2 live ∧
    ((tdbRangeCalls E t fuel lo hi limit cb st r).1.isSome → live = [])
  := by
  obtain ⟨rc, txn, world, hbegin⟩ : ∃ rc txn world, E.txnBegin r.world t.db = (rc, txn, world) :=
    ⟨_, _, _, rfl⟩
  obtain ⟨rc', it, world', hnew⟩ : ∃ rc' it world', E.iterNew world txn t.cf = (rc', it, world') :=
    ⟨_, _, _, rfl⟩
  simp only [tdbRangeCalls, hbegin, TdbRun.note_world, hnew]
  by_cases hrc : rc = tdbSuccess
  · subst hrc
    have hb : Reading r (r.note world (.txnBegin tdbSuccess txn)) [.txn txn] :=
      (Reading.refl h).note _ _ rfl world rfl
    rw [if_neg (not_not.mpr rfl)]
    by_cases hrc' : rc' = tdbSuccess
    · subst hrc'
      have hi' := hb.note (.iterNew txn tdbSuccess it) [.iter it, .txn txn]
        (by simp) world' rfl
      have hs := hi'.note (.iterSeek it) [.iter it, .txn txn]
        (by simp) (E.iterSeek world' it lo) rfl
      have hrows := tdbRows_reading E hi limit cb it txn r fuel 0 st _ hs
      rw [if_neg (not_not.mpr rfl)]
      obtain ⟨out, r', hloop⟩ : ∃ out r', tdbRows E hi limit cb it fuel 0 st
          ((((r.note world (.txnBegin tdbSuccess txn)).note world'
            (.iterNew txn tdbSuccess it))).note (E.iterSeek world' it lo) (.iterSeek it))
          = (out, r') := ⟨_, _, rfl⟩
      rw [hloop] at hrows ⊢
      cases out with
      | none =>
        use [.iter it, .txn txn], hrows
        intro hsome
        cases hsome
      | some out =>
        use []
        refine ⟨?_, fun _ => rfl⟩
        have hf := hrows.note (.iterFree it) [.txn txn]
          (by simp)
          (E.iterFree r'.world it) rfl
        refine hf.note _ _ ?_ _ rfl
        simp
    · rw [if_pos hrc']
      use []
      refine ⟨?_, fun _ => rfl⟩
      have hi' := hb.note (.iterNew txn rc' it) [.txn txn]
        (by simp [hrc']) world' rfl
      refine hi'.note _ _ ?_ _ rfl
      simp
  · rw [if_pos hrc]
    use []
    refine ⟨?_, fun _ => rfl⟩
    refine (Reading.refl h).note _ _ ?_ world rfl
    rw [TdbCall.touches, if_neg hrc]
    rfl

end Reading

/-! ## The operations -/

/-- A call of one of the operations. -/
inductive TdbOp (W σ : Type) where
  | put (k v : Bytes)
  | putbatch (kvs : List (Bytes × Bytes))
  | del (k : Bytes)
  | delbatch (ks : List Bytes)
  | get (k : Bytes)
  | range (lo hi : Bytes) (limit : ℤ) (cb : TdbCallback W σ) (st : σ)

namespace TdbOp

/-- The writes of an operation that writes. -/
def writes : TdbOp W σ → Option (List KvWrite)
  | .put k v => some [.put k v]
  | .putbatch kvs => some (kvs.map (fun kv => .put kv.1 kv.2))
  | .del k => some [.del k]
  | .delbatch ks => some (ks.map .del)
  | .get _ => none
  | .range _ _ _ _ _ => none

/-- The code of an operation that has written. -/
def okCode : TdbOp W σ → ℤ
  | .del _ => 1
  | _ => 0

section Run

variable (E : TidesdbEngine W D Cf Txn It Ptr) (t : Tdb D Cf) (fuel : ℕ)

/-- The code of an operation and the run after it.  A range of more than `fuel` rows gives no
code. -/
def run (r : TdbRun W Txn It Ptr) : TdbOp W σ → Option ℤ × TdbRun W Txn It Ptr
  | .put k v => ((some (tdbPut E t k v r).1), (tdbPut E t k v r).2)
  | .putbatch kvs => (some (tdbPutbatch E t kvs r).1, (tdbPutbatch E t kvs r).2)
  | .del k => (some (tdbDel E t k r).1, (tdbDel E t k r).2)
  | .delbatch ks => (some (tdbDelbatch E t ks r).1, (tdbDelbatch E t ks r).2)
  | .get k => (some (tdbGet E t k r).1, (tdbGet E t k r).2.2)
  | .range lo hi limit cb st =>
    ((tdbRangeCalls E t fuel lo hi limit cb st r).1.map Prod.fst,
      (tdbRangeCalls E t fuel lo hi limit cb st r).2)

/-- Operations one after the other, while they end. -/
def runAll : List (TdbOp W σ) → TdbRun W Txn It Ptr → Option (TdbRun W Txn It Ptr)
  | [], r => some r
  | op :: ops, r => if (op.run E t fuel r).1.isSome then runAll ops (op.run E t fuel r).2 else none

omit [DecidableEq Txn] [DecidableEq It] [DecidableEq Ptr] in
/-- The code tells whether the transaction was committed. -/
theorem tdbCode_eq_iff {ok hard rc : ℤ} (hretry : kvRetry ≠ ok) (hhard : hard ≠ ok) :
  tdbCode E ok hard rc = ok ↔ rc = tdbSuccess
  := by
  rw [tdbCode]
  split_ifs with h h'
  · exact ⟨fun _ => h, fun _ => rfl⟩
  · exact ⟨fun heq => absurd heq hretry, fun heq => absurd heq h⟩
  · exact ⟨fun heq => absurd heq hhard, fun heq => absurd heq h⟩

/-- A write operation. -/
theorem writeOp_spec {ok hard : ℤ} (hretry : kvRetry ≠ ok) (hhard : hard ≠ ok) (ws : List KvWrite)
    {r : TdbRun W Txn It Ptr} (h : r.Live []) :
  ∃ calls, (tdbWriteOp E t ok hard ws r).2.calls = r.calls ++ calls ∧
    (tdbWriteOp E t ok hard ws r).2.Live [] ∧ Commits (some ws) calls ∧
    ((tdbWriteOp E t ok hard ws r).1 = ok ↔ ∃ txn, TdbCall.txnCommit txn tdbSuccess ∈ calls)
  := by
  obtain ⟨calls, hcalls, htrace⟩ := tdbWrite_calls E t ws r
  obtain ⟨hcommits, hcode⟩ := htrace.commits
  use calls, hcalls
  and_intros
  · apply h.append hcalls htrace.live
  · apply hcommits
  · rw [← hcode]
    apply tdbCode_eq_iff E hretry hhard

/-- An operation that writes keeps the handles bracketed and commits what it writes as a whole. -/
theorem run_spec_of_writes {op : TdbOp W σ} {ok hard : ℤ} {ws : List KvWrite}
    {r : TdbRun W Txn It Ptr} (hretry : kvRetry ≠ ok) (hhard : hard ≠ ok) (hws : op.writes = some ws)
    (hok : op.okCode = ok) (hrun : op.run E t fuel r
      = (some (tdbWriteOp E t ok hard ws r).1, (tdbWriteOp E t ok hard ws r).2)) (h : r.Live []) :
  ∃ calls live, (op.run E t fuel r).2.calls = r.calls ++ calls ∧
    (op.run E t fuel r).2.Live live ∧ ((op.run E t fuel r).1.isSome → live = []) ∧
    Commits op.writes calls ∧
    ∀ code, (op.run E t fuel r).1 = some code → op.writes.isSome →
      (code = op.okCode ↔ ∃ txn, TdbCall.txnCommit txn tdbSuccess ∈ calls)
  := by
  obtain ⟨calls, hcalls, hlive, hcommits, hcode⟩ := writeOp_spec E t hretry hhard ws h
  rw [hrun, hws, hok]
  refine ⟨calls, [], hcalls, hlive, fun _ => rfl, hcommits, ?_⟩
  intro code hanswer _
  rw [← Option.some.inj hanswer]
  apply hcode

/-- An operation keeps the handles bracketed and commits what it writes as a whole. -/
theorem run_spec (op : TdbOp W σ) {r : TdbRun W Txn It Ptr} (h : r.Live []) :
  ∃ calls live, (op.run E t fuel r).2.calls = r.calls ++ calls ∧
    (op.run E t fuel r).2.Live live ∧ ((op.run E t fuel r).1.isSome → live = []) ∧
    Commits op.writes calls ∧
    ∀ code, (op.run E t fuel r).1 = some code → op.writes.isSome →
      (code = op.okCode ↔ ∃ txn, TdbCall.txnCommit txn tdbSuccess ∈ calls)
  := by
  have hcodes : kvRetry ≠ 0 ∧ kvRetry ≠ 1 ∧ (-1 : ℤ) ≠ 0 ∧ (0 : ℤ) ≠ 1 := by decide
  obtain ⟨hretry, hretry', hhard, hhard'⟩ := hcodes
  cases op with
  | put k v => apply run_spec_of_writes E t fuel hretry hhard rfl rfl rfl h
  | putbatch kvs => apply run_spec_of_writes E t fuel hretry hhard rfl rfl rfl h
  | del k => apply run_spec_of_writes E t fuel hretry' hhard' rfl rfl rfl h
  | delbatch ks => apply run_spec_of_writes E t fuel hretry hhard rfl rfl rfl h
  | get k =>
    obtain ⟨hlive, calls, hcalls, hnone⟩ := tdbGet_reading E t k h
    refine ⟨calls, [], hcalls, hlive, fun _ => rfl, Commits.of_none _ hnone, ?_⟩
    intro code _ hwrites
    cases hwrites
  | range lo hi limit cb st =>
    obtain ⟨live, ⟨hlive, calls, hcalls, hnone⟩, hend⟩ :=
      tdbRangeCalls_reading E t fuel lo hi limit cb st h
    refine ⟨calls, live, hcalls, hlive, ?_, Commits.of_none _ hnone, ?_⟩
    · intro hsome
      apply hend
      rw [← Option.isSome_map (f := Prod.fst)]
      apply hsome
    · intro code _ hwrites
      cases hwrites

/-- Operations one after the other keep the handles bracketed. -/
theorem runAll_live (ops : List (TdbOp W σ)) {r r' : TdbRun W Txn It Ptr} (h : r.Live [])
    (hrun : runAll E t fuel ops r = some r') :
  r'.Live []
  := by
  induction ops generalizing r with
  | nil =>
    obtain rfl := Option.some.inj hrun
    apply h
  | cons op ops ih =>
    rw [runAll] at hrun
    split_ifs at hrun with hsome
    obtain ⟨_, live, -, hlive, hend, -⟩ := run_spec E t fuel op h
    rw [hend hsome] at hlive
    apply ih hlive hrun

/-- Whatever TidesDB answers: an operation touches handles only while they are live, releases
each as often as it acquires it when it ends, commits at most once and after all its elements
have succeeded, and succeeds exactly when its commit does. -/
theorem run_brackets (op : TdbOp W σ) (w : W) :
  (∃ live, (op.run E t fuel (⟨w, []⟩ : TdbRun W Txn It Ptr)).2.Live live) ∧
    ((op.run E t fuel (⟨w, []⟩ : TdbRun W Txn It Ptr)).1.isSome →
      Lifetime.Bracketed (op.run E t fuel (⟨w, []⟩ : TdbRun W Txn It Ptr)).2.touches) ∧
    Commits op.writes (op.run E t fuel (⟨w, []⟩ : TdbRun W Txn It Ptr)).2.calls ∧
    ∀ code, (op.run E t fuel (⟨w, []⟩ : TdbRun W Txn It Ptr)).1 = some code → op.writes.isSome →
      (code = op.okCode ↔ ∃ txn, TdbCall.txnCommit txn tdbSuccess
        ∈ (op.run E t fuel (⟨w, []⟩ : TdbRun W Txn It Ptr)).2.calls)
  := by
  have h : (⟨w, []⟩ : TdbRun W Txn It Ptr).Live [] := rfl
  obtain ⟨calls, live, hcalls, hlive, hend, hcommits, hcode⟩ := run_spec E t fuel op h
  have heq : (op.run E t fuel (⟨w, []⟩ : TdbRun W Txn It Ptr)).2.calls = calls := hcalls
  rw [heq]
  and_intros
  · use live
  · intro hsome
    rw [hend hsome] at hlive
    apply hlive
  · apply hcommits
  · apply hcode

/-- After operations that have ended, each handle has been released as often as it was
acquired. -/
theorem runAll_released (ops : List (TdbOp W σ)) (w : W) {r : TdbRun W Txn It Ptr}
    (hrun : runAll E t fuel ops ⟨w, []⟩ = some r) (x : TdbHandle Txn It Ptr) :
  r.touches.countP (Lifetime.releases x) = r.touches.countP (Lifetime.acquires x)
  := by
  have hlive : (⟨w, []⟩ : TdbRun W Txn It Ptr).Live [] := rfl
  have hend : Lifetime.Bracketed r.touches := runAll_live E t fuel ops hlive hrun
  apply hend.released

/-- A handle is used only while it has been acquired more often than released. -/
theorem use_acquired (op : TdbOp W σ) (w : W) {before after : List (Touch (TdbHandle Txn It Ptr))}
    {x : TdbHandle Txn It Ptr}
    (h : (op.run E t fuel (⟨w, []⟩ : TdbRun W Txn It Ptr)).2.touches = before ++ .use x :: after) :
  before.countP (Lifetime.releases x) < before.countP (Lifetime.acquires x)
  := by
  have hlive : (⟨w, []⟩ : TdbRun W Txn It Ptr).Live [] := rfl
  obtain ⟨_, live, -, hrun, -⟩ := run_spec E t fuel op hlive
  have htouches : Lifetime.run [] (before ++ .use x :: after) = some live := by
    rw [← h]
    apply hrun
  apply Lifetime.acquired_of_use htouches

end Run

end TdbOp

end Keybench
