import Keybench.Kv.Clients
import Keybench.Workload.Pairs
import Keybench.Workload.Sound

/-!
# Measurements on one shared skiplist

The loaders and then the workers of a measurement run as clients of one skiplist, and the accesses
of their calls interleave in every way the list's lock allows.  No thread ever fails, some thread
can go on until all have ended, and while no thread is in a call the skiplist holds pairs of the
workload only (`sharedMeasure_sound`).
-/

namespace Keybench

open Access Interleave RwLock

/-! ## Plain programs -/

/-- A call whose answer is discarded is plain. -/
theorem callOnce_plain (verb : KvVerb) (args : List LuaArg) :
  (callOnce verb args).Plain
  := by
  intro a
  dsimp only
  split_ifs
  · trivial
  · trivial

/-- The verbs that call the skiplist once. -/
def KvVerb.single : KvVerb → Bool
  | .put | .get | .del | .range => true
  | .mget | .mput | .mdel => false

/-- Each verb of a program calls the skiplist once. -/
def LuaProg.Whole : LuaProg → Prop
  | .ret _ => True
  | .raise => True
  | .call verb _ next => verb.single = true ∧ ∀ a, (next a).Whole
  | .scan _ _ _ fn _ next => (∀ k v, (fn k v).ending.isSome) ∧ ∀ a, (next a).Whole

/-- A program whose verbs call once is plain. -/
theorem LuaProg.Whole.plain {prog : LuaProg} (h : prog.Whole) :
  prog.Plain
  := by
  induction prog with
  | ret truthy => trivial
  | raise => trivial
  | call verb args next ih => exact fun a => ih a (h.2 a)
  | scan lo hi callable fn limit next ihfn ihnext => exact ⟨h.1, fun a => ihnext a (h.2 a)⟩

/-- A call whose answer is discarded. -/
theorem callOnce_whole {verb : KvVerb} (h : verb.single = true) (args : List LuaArg) :
  (callOnce verb args).Whole
  := by
  use h
  intro a
  dsimp only
  split_ifs
  · trivial
  · trivial

/-- `kv.del` calls the skiplist once for each key. -/
theorem delAll_whole (ks : List Bytes) :
  (delAll ks).Whole
  := by
  induction ks with
  | nil => trivial
  | cons k ks ih =>
    use rfl
    intro a
    dsimp only
    split_ifs
    · trivial
    · apply ih

/-- Reading the range of a user is one call. -/
theorem rangeOfUser_whole (uid : ℤ) {next : List (Bytes × Bytes) → LuaProg}
    (h : ∀ rows, (next rows).Whole) :
  (rangeOfUser uid next).Whole
  := by
  rw [rangeOfUser]
  split
  · trivial
  · use rfl
    intro a
    dsimp only
    split
    · apply h
    · trivial

/-- A scan is one call. -/
theorem scanOnce_whole (lo hi : Bytes) :
  (scanOnce lo hi).Whole
  := by
  use fun _ _ => rfl
  intro a
  dsimp only
  split_ifs
  · trivial
  · trivial

/-- The operations of cart use verbs that call once. -/
theorem CartOp.prog_whole (op : CartOp) :
  op.prog.Whole
  := by
  cases op with
  | view uid => exact rangeOfUser_whole uid fun _ => trivial
  | checkout uid => exact rangeOfUser_whole uid fun _ => delAll_whole _
  | _ => exact callOnce_whole rfl _

/-- Handing batches over is plain. -/
theorem mputAll_plain (batches : List (List (Bytes × Bytes))) :
  (mputAll batches).Plain
  := by
  induction batches with
  | nil => trivial
  | cons kvs rest ih =>
    intro a
    dsimp only
    split_ifs
    · trivial
    · apply ih

/-- Plain programs one after the other. -/
theorem LuaProg.Plain.andThen {prog prog' : LuaProg} (h : prog.Plain) (h' : prog'.Plain) :
  (prog.andThen prog').Plain
  := by
  induction prog with
  | ret truthy => apply h'
  | raise => trivial
  | call verb args next ih => exact fun a => ih a (h a)
  | scan lo hi callable fn limit next ihfn ihnext => exact ⟨h.1, fun a => ihnext a (h.2 a)⟩

section Plain

variable {G : Type} {rng : LuaRandom G} {hot : ℤ → G → ℤ × G} {items : ℤ}

/-- A call of `run` is plain. -/
theorem Workload.Call.plain {W : Workload} {prog : LuaProg} (h : W.Call items prog) :
  prog.Plain
  := by
  cases h with
  | scan start => exact (scanOnce_whole _ _).plain
  | cart op => exact op.prog_whole.plain
  | _ => apply callOnce_plain

variable (rng hot items) in
/-- A worker is plain. -/
theorem worker_plain (W : Workload) (n : ℕ) (g : G) :
  (W.worker rng hot items n g).Plain
  := by
  apply worker_induct trivial trivial (fun _ _ h h' => h.andThen h')
  exact fun _ hcall => hcall.plain

variable (rng items) in
/-- A loader is plain. -/
theorem loader_plain (W : Workload) (thread threads : ℤ) (g : G) :
  (W.loader rng items thread threads g).Plain
  := by
  rw [Workload.loader]
  split
  · trivial
  · apply mputAll_plain

end Plain

/-! ## What programs ensure -/

/-- The puts that a verb calls are among its writes. -/
theorem put_mem_writes {verb : KvVerb} {args : List LuaArg} {v : VerbCalls}
    (hv : verbCalls args verb = some v) {k x : Bytes} (h : SlCall.put k x ∈ v.calls) :
  KvWrite.put k x ∈ verb.writes args
  := by
  cases verb with
  | put =>
    obtain ⟨k', hk, hv⟩ := Option.bind_eq_some_iff.mp hv
    obtain ⟨x', hx, hv⟩ := Option.bind_eq_some_iff.mp hv
    obtain rfl := Option.some.inj hv
    cases List.mem_singleton.mp h
    rw [KvVerb.writes, hk, hx]
    exact List.mem_singleton_self _
  | get =>
    obtain ⟨k', -, hv⟩ := Option.bind_eq_some_iff.mp hv
    obtain rfl := Option.some.inj hv
    cases List.mem_singleton.mp h
  | del =>
    obtain ⟨k', -, hv⟩ := Option.bind_eq_some_iff.mp hv
    obtain rfl := Option.some.inj hv
    cases List.mem_singleton.mp h
  | range =>
    obtain ⟨lo, -, hv⟩ := Option.bind_eq_some_iff.mp hv
    obtain ⟨hi, -, hv⟩ := Option.bind_eq_some_iff.mp hv
    obtain ⟨limit, -, hv⟩ := Option.bind_eq_some_iff.mp hv
    obtain rfl := Option.some.inj hv
    cases List.mem_singleton.mp h
  | mget =>
    rw [verbCalls] at hv
    split at hv
    · obtain ⟨ks, -, hv⟩ := Option.bind_eq_some_iff.mp hv
      obtain rfl := Option.some.inj hv
      obtain ⟨k', -, heq⟩ := List.mem_map.mp h
      cases heq
    · cases hv
  | mput =>
    rw [verbCalls] at hv
    split at hv
    · rename_i len geti getfield harg
      obtain ⟨kvs, hkvs, hv⟩ := Option.bind_eq_some_iff.mp hv
      obtain rfl := Option.some.inj hv
      obtain ⟨kv, hkv, heq⟩ := List.mem_map.mp h
      cases heq
      rw [KvVerb.writes, harg]
      simp only [hkvs, Option.bind_eq_bind, Option.bind_some, Option.getD_some]
      exact List.mem_map_of_mem hkv
    · cases hv
  | mdel =>
    rw [verbCalls] at hv
    split at hv
    · obtain ⟨ks, -, hv⟩ := Option.bind_eq_some_iff.mp hv
      obtain rfl := Option.some.inj hv
      obtain ⟨k', -, heq⟩ := List.mem_map.mp h
      cases heq
    · cases hv

/-- The answers of a verb. -/
theorem verbCalls_answers {verb : KvVerb} {args : List LuaArg} {v : VerbCalls}
    (hv : verbCalls args verb = some v) (as : List SlAnswer) :
  verb.Answers (v.answer as)
  := by
  cases verb with
  | put =>
    obtain ⟨k, -, hv⟩ := Option.bind_eq_some_iff.mp hv
    obtain ⟨x, -, hv⟩ := Option.bind_eq_some_iff.mp hv
    obtain rfl := Option.some.inj hv
    exact .put
  | get =>
    obtain ⟨k, -, hv⟩ := Option.bind_eq_some_iff.mp hv
    obtain rfl := Option.some.inj hv
    exact .get _
  | del =>
    obtain ⟨k, -, hv⟩ := Option.bind_eq_some_iff.mp hv
    obtain rfl := Option.some.inj hv
    exact .del _
  | range =>
    obtain ⟨lo, -, hv⟩ := Option.bind_eq_some_iff.mp hv
    obtain ⟨hi, -, hv⟩ := Option.bind_eq_some_iff.mp hv
    obtain ⟨limit, -, hv⟩ := Option.bind_eq_some_iff.mp hv
    obtain rfl := Option.some.inj hv
    exact .range _
  | mget =>
    rw [verbCalls] at hv
    split at hv
    · obtain ⟨ks, -, hv⟩ := Option.bind_eq_some_iff.mp hv
      obtain rfl := Option.some.inj hv
      exact .mget _
    · cases hv
  | mput =>
    rw [verbCalls] at hv
    split at hv
    · obtain ⟨kvs, -, hv⟩ := Option.bind_eq_some_iff.mp hv
      obtain rfl := Option.some.inj hv
      exact .mput
    · cases hv
  | mdel =>
    rw [verbCalls] at hv
    split at hv
    · obtain ⟨ks, -, hv⟩ := Option.bind_eq_some_iff.mp hv
      obtain rfl := Option.some.inj hv
      exact .mdel _
    · cases hv

/-- A call that puts pairs of a kind at most. -/
theorem HoldsOnly.apply {P : Bytes → Bytes → Prop} {m : Contents} (h : HoldsOnly P m)
    {call : SlCall} (hcall : ∀ k v, call = .put k v → P k v) :
  HoldsOnly P (call.apply m)
  := by
  cases call with
  | put k v =>
    have hputs : ∀ k' v', KvWrite.put k' v' ∈ [KvWrite.put k v] → P k' v' := by
      intro k' v' hmem
      cases List.mem_singleton.mp hmem
      exact hcall k v rfl
    exact h.applyAll hputs
  | del k =>
    have hputs : ∀ k' v', KvWrite.put k' v' ∈ [KvWrite.del k] → P k' v' := by
      intro k' v' hmem
      cases List.mem_singleton.mp hmem
    exact h.applyAll hputs
  | get k => exact h
  | range lo hi limit cb => exact h

/-- A sound program that asks for no verb does not fail. -/
theorem LuaProg.Sound.ending_ne {prog : LuaProg} (h : prog.Sound) (hend : prog.ending.isSome) :
  prog.ending.get hend ≠ .raised
  := by
  cases h with
  | ret truthy =>
    intro hraised
    cases hraised
  | call => cases hend
  | scan => cases hend

/-- A scan whose callback raises no error answers a number. -/
theorem scanCalls_answer (lo hi : Bytes) (limit : ℤ) (fn : Bytes → Bytes → LuaEnd)
    (hfn : ∀ k v, fn k v ≠ .raised) (as : List SlAnswer) :
  ∃ n, (scanCalls lo hi limit fn).answer as = .integer n
  := by
  use (as.headD (.rc 0)).code.1
  have hany : ((as.headD (.rc 0)).rowsCalled.any fun row => fn row.1 row.2 = .raised) = false := by
    rw [List.any_eq_false]
    intro row _
    simpa using hfn row.1 row.2
  change scanAnswer _ (List.any _ _) = _
  rw [hany]
  rfl

/-- A sound program that puts pairs of a kind only keeps contents of the kind and does not fail. -/
theorem client_ensures {P : Bytes → Bytes → Prop} {prog : LuaProg} (hputs : prog.PutsOnly P)
    (hsound : prog.Sound) (hplain : prog.Plain) (calls : List (SlCall × SlAnswer))
    (notes : List KvNote) :
  (prog.client hplain).Ensures mapServe (HoldsOnly P) (fun _ => True) (fun _ _ r => r ≠ .raised)
    calls notes
  := by
  induction hputs generalizing calls notes with
  | ret truthy =>
    apply Client.Ensures.done trivial
    intro hraised
    cases hraised
  | raise => cases hsound
  | @call verb args next hputs hnext ih =>
    cases hsound with
    | call haccepts hsound =>
      rw [LuaProg.client]
      split
      · rename_i hv
        exact absurd (kvCall_rejected hv ⟨OrderedMap.empty, statsReset⟩) (haccepts _ mapStore _)
      · rename_i v hv
        apply Client.Ensures.bind
        apply VerbCalls.client_ensures (P := fun _ _ => True) trivial
        · intro call hcall m hm
          refine ⟨hm.apply ?_, trivial⟩
          rintro k x rfl
          exact hputs k x (put_mem_writes hv hcall)
        · exact fun _ _ _ _ _ => trivial
        · intro ns as has
          apply ih
          exact hsound _ (verbCalls_answers hv as)
  | @scan lo hi callable fn limit next hfn hnext ihfn ihnext =>
    cases hsound with
    | scan haccepts hsoundfn hsound =>
      rw [LuaProg.client]
      split
      · rename_i hargs
        exact absurd hargs haccepts
      · apply Client.Ensures.bind
        apply VerbCalls.client_ensures (P := fun _ _ => True) trivial
        · intro call hcall m hm
          cases List.mem_singleton.mp hcall
          exact ⟨hm, trivial⟩
        · exact fun _ _ _ _ _ => trivial
        · intro ns as has
          apply ihnext
          obtain ⟨n, hn⟩ := scanCalls_answer _ _ _ _
            (fun k v => (hsoundfn k v).ending_ne (hplain.1 k v)) as
          rw [hn]
          apply hsound

/-! ## Threads -/

/-- A client of the skiplist that runs a program. -/
abbrev KvClient : Type := Client SlCall SlAnswer UInt64 KvNote LuaEnd

/-- Threads that run programs on one skiplist. -/
abbrev SharedThreads (R ι : Type) : Type 1 :=
  Locked (Skiplist R) SlCall SlAnswer UInt64 KvNote LuaEnd ι

/-- The client has returned. -/
def returned : KvClient → Bool
  | .done (.returned _) => true
  | _ => false

/-- A client that has returned is done. -/
theorem exists_done_of_returned {client : KvClient} (h : returned client = true) :
  ∃ truthy, client = .done (.returned truthy)
  := by
  cases client with
  | done r =>
    cases r with
    | returned truthy => exact ⟨truthy, rfl⟩
    | raised => cases h
  | _ => cases h

/-- A thread that has ended, with what was noted. -/
def noted (notes : List KvNote) : LuaThread :=
  ⟨.ret false, (notes.filterMap KvNote.event).foldl statsRecord statsReset,
    notes.filterMap KvNote.call⟩

/-- What a verb adds to what was noted. -/
theorem noted_append (notes : List KvNote) (v : VerbCalls) (ns : UInt64) (as : List SlAnswer) :
  noted (notes ++ v.notes ns as)
    = ⟨.ret false, (v.events ns as).foldl statsRecord (noted notes).stats,
        (noted notes).made ++ [v.made]⟩
  := by
  rw [noted, List.filterMap_append, List.filterMap_append, v.notes_event, v.notes_call,
    List.foldl_append]
  rfl

section Runs

variable {R ι : Type} {rand : R → ℕ × R} {fuel : ℕ} [DecidableEq ι]

/-- No thread has failed, some thread can go on until all have ended, and while no thread is in a
call the skiplist holds contents of a kind. -/
structure RunsWell (rand : R → ℕ × R) (fuel : ℕ) (K : Contents → Prop) (x : SharedThreads R ι) :
    Prop where
  sound : ∀ t, (x.thread t).left ≠ .done .raised
  progress : ∀ t, (x.thread t).left.ended = false → ∃ u, x.GoesOn (slObject rand fuel) u
  quiet : (∀ t, x.config.phase t = .idle) → ∃ m, SlHolds x.config.state m ∧ K m

variable (hrand : ∀ r, 0 < (rand r).1 ∧ (rand r).1 ≤ slMaxLevel)

include hrand

/-- Threads that run sound programs that put pairs of a kind only. -/
theorem programs_runWell {P : Bytes → Bytes → Prop} {progs : ι → LuaProg}
    (hputs : ∀ t, (progs t).PutsOnly P) (hsound : ∀ t, (progs t).Sound)
    (hplain : ∀ t, (progs t).Plain) {s : Skiplist R} {m : Contents} (hholds : SlHolds s m)
    (hm : HoldsOnly P m) {es : List (ι × LockTurn UInt64)} {x : SharedThreads R ι}
    (hrun : run (lockedStep (slObject rand fuel))
      (.start s fun t => (progs t).client (hplain t)) es = some x)
    (hfuel : m.entries.length + es.countP (fun e => e.2.isCall) + 1 < fuel) :
  RunsWell rand fuel (HoldsOnly P) x
  := by
  obtain ⟨y, hy, hthread, -, hquiet, -, hprogress⟩ := lockedClients_spec hrand hholds hrun hfuel
  obtain ⟨hstate, hthreads⟩ := run_ensures hy hm fun t =>
    client_ensures (hputs t) (hsound t) (hplain t) [] []
  constructor
  case sound =>
    intro t hleft
    have ht := hthreads t
    rw [← hthread, hleft] at ht
    exact ht.now.2 .raised rfl rfl
  case progress => exact hprogress
  case quiet => exact fun hidle => ⟨y.state, hquiet hidle, hstate⟩

/-- What threads that have all returned leave. -/
theorem exists_map_of_returned {clients : ι → KvClient} {s : Skiplist R}
    {m : Contents} (hholds : SlHolds s m) {es : List (ι × LockTurn UInt64)} {x : SharedThreads R ι}
    (hrun : run (lockedStep (slObject rand fuel)) (.start s clients) es = some x)
    (hfuel : m.entries.length + es.countP (fun e => e.2.isCall) + 1 < fuel)
    (hends : ∀ t, returned (x.thread t).left = true) :
  ∃ y, run (sharedStep mapServe) (.start m clients) (es.flatMap fun e => e.2.turns e.1) = some y ∧
    x.thread = y.thread ∧ SlHolds x.config.state y.state ∧
    y.state.entries.length ≤ m.entries.length + es.countP (fun e => e.2.isCall)
  := by
  obtain ⟨y, hy, hthread, hsize, hquiet, hidle, -⟩ := lockedClients_spec hrand hholds hrun hfuel
  refine ⟨y, hy, hthread, hquiet fun t => hidle t ?_, hsize⟩
  obtain ⟨truthy, hdone⟩ := exists_done_of_returned (hends t)
  rw [hdone]
  rfl

end Runs

/-! ## Measurements -/

/-- A measurement on one skiplist: the loaders take the turns `es`, and when all of them have
returned, the workers take the turns `fs`. -/
def sharedMeasure {R : Type} (rand : R → ℕ × R) (fuel : ℕ) {T N : ℕ} (loaders : Fin T → KvClient)
    (workers : Fin N → KvClient) (es : List (Fin T × LockTurn UInt64))
    (fs : List (Fin N × LockTurn UInt64)) (s : Skiplist R) : Option (SharedThreads R (Fin N)) :=
  (run (lockedStep (slObject rand fuel)) (.start s loaders) es).bind fun x =>
    if ∀ t, returned (x.thread t).left then
      run (lockedStep (slObject rand fuel)) (.start x.config.state workers) fs
    else none

/-- A worker of a measurement that has returned is in no call. -/
theorem idle_of_sharedMeasure {R : Type} {rand : R → ℕ × R} {fuel T N : ℕ}
    {loaders : Fin T → KvClient} {workers : Fin N → KvClient} {es : List (Fin T × LockTurn UInt64)}
    {fs : List (Fin N × LockTurn UInt64)} {s : Skiplist R} {x : SharedThreads R (Fin N)}
    (hrun : sharedMeasure rand fuel loaders workers es fs s = some x) {n : Fin N}
    (h : returned (x.thread n).left = true) :
  x.config.phase n = .idle
  := by
  obtain ⟨z, -, hrun⟩ := Option.bind_eq_some_iff.mp hrun
  split_ifs at hrun
  obtain ⟨y, -, htracks⟩ := exists_shared hrun
  apply htracks.idle_of_ended
  obtain ⟨truthy, hdone⟩ := exists_done_of_returned h
  rw [hdone]
  rfl

section Workloads

variable {R G : Type} (rng : LuaRandom G) (hot : ℤ → G → ℤ × G) (rand : R → ℕ × R)

/-- The loaders of a workload as clients. -/
def Workload.loaders (W : Workload) (items : ℤ) {T : ℕ} (g : Fin T → G) (t : Fin T) : KvClient :=
  (W.loader rng items t T (g t)).client (loader_plain rng items W t T (g t))

/-- The workers of a workload as clients. -/
def Workload.workers (W : Workload) (items : ℤ) {N : ℕ} (calls : Fin N → ℕ) (h : Fin N → G)
    (n : Fin N) : KvClient :=
  (W.worker rng hot items (calls n) (h n)).client (worker_plain rng hot items W (calls n) (h n))

variable {rng hot rand} (hrand : ∀ r, 0 < (rand r).1 ∧ (rand r).1 ≤ slMaxLevel) {items : ℤ}

include hrand

/-- A measurement of a workload on one skiplist, with parameters in range: while it is loaded, and
while it is run with windows that do not wrap, no thread has failed, some thread can go on until all
have ended, and while no thread is in a call the skiplist holds pairs of the workload only. -/
theorem sharedMeasure_sound (hhot : DrawsUsers hot) {W : Workload} (hW : W.Accepted items)
    {T N : ℕ} (calls : Fin N → ℕ) (g : Fin T → G) (h : Fin N → G) {s : Skiplist R} {m : Contents}
    (hholds : SlHolds s m) (hm : HoldsOnly (W.Pair items) m) (es : List (Fin T × LockTurn UInt64))
    (fs : List (Fin N × LockTurn UInt64)) {fuel : ℕ}
    (hfuel : m.entries.length + es.countP (fun e => e.2.isCall)
      + fs.countP (fun e => e.2.isCall) + 1 < fuel) :
  (∀ x, run (lockedStep (slObject rand fuel)) (.start s (W.loaders rng items g)) es = some x →
      RunsWell rand fuel (HoldsOnly (W.Pair items)) x) ∧
    (W.WindowsFit items → ∀ x,
      sharedMeasure rand fuel (W.loaders rng items g) (W.workers rng hot items calls h) es fs s
        = some x → RunsWell rand fuel (HoldsOnly (W.Pair items)) x)
  := by
  have hload : m.entries.length + es.countP (fun e => e.2.isCall) + 1 < fuel := by omega
  constructor
  · intro x hrun
    exact programs_runWell hrand (fun t => loader_putsOnly hW t.isLt (g t))
      (fun t => loader_sound hW t.isLt (g t)) _ hholds hm hrun hload
  · intro hfits x hrun
    obtain ⟨z, hz, hrun⟩ := Option.bind_eq_some_iff.mp hrun
    split_ifs at hrun with hends
    obtain ⟨y, hy, -, hholds', hsize⟩ := exists_map_of_returned hrand hholds hz hload hends
    have hm' := (run_ensures hy hm fun t => client_ensures (loader_putsOnly hW t.isLt (g t))
      (loader_sound hW t.isLt (g t)) (loader_plain rng items W t T (g t)) [] []).1
    apply programs_runWell hrand (fun n => worker_putsOnly (calls n) (h n))
      (fun n => worker_sound hhot hW hfits (calls n) (h n)) _ hholds' hm' hrun
    omega

end Workloads

/-- Turns of a thread that holds the lock: some accesses, and it gives the lock back. -/
def untilLeft {ι : Type} (t : ι) (accesses : ℕ) : List (ι × LockTurn UInt64) :=
  List.replicate accesses (t, .access) ++ [(t, .leave)]

/-- Turns of two loaders, of two keys and of one: each comes to the lock while the other holds it,
and the one key is put between the two. -/
def twoLoaded {ι : Type} (t u : ι) : List (ι × LockTurn UInt64) :=
  [[(t, .own (.input 3)), (u, .own (.input 4)), (t, .call), (t, .enter), (t, .access), (u, .call)],
    untilLeft t 21, [(u, .enter), (t, .call)], untilLeft u 34,
    [(t, .enter), (u, .own (.input 5))], untilLeft t 25, [(t, .own (.input 6))],
    (List.replicate 3 [(t, .own .note), (u, .own .note)]).flatten].flatten

/-- Turns of two workers: one has looked a key up, the other is inside its put. -/
def oneInside {ι : Type} (t u : ι) : List (ι × LockTurn UInt64) :=
  [[(u, .own (.input 7)), (t, .own (.input 8)), (t, .call), (t, .enter), (u, .call)],
    untilLeft t 13,
    [(u, .enter), (u, .access), (t, .own (.input 9)), (u, .access), (t, .own .note)]].flatten

/-- Both threads have returned. -/
theorem returned_of_both {R : Type} {x : SharedThreads R (Fin 2)}
    (h : (returned (x.thread 0).left, returned (x.thread 1).left) = (true, true)) (n : Fin 2) :
  returned (x.thread n).left = true
  := by
  match n with
  | 0 => exact congrArg Prod.fst h
  | 1 => exact congrArg Prod.snd h

/-- Two loaders put three values, and of two workers one is between its notes while the other is
inside its put. -/
theorem sharedMeasure_sound_example :
  ∃ x : SharedThreads UInt64 (Fin 2),
    sharedMeasure randLevel 12 ((Workload.valsize 1).loaders steadyRandom 3 fun _ : Fin 2 => 0)
        ((Workload.valsize 1).workers steadyRandom (fun _ g => (0, g)) 3 (fun _ => 1)
          fun n => 70 * n.val.toUInt32)
        (twoLoaded 0 1) (oneInside 0 1) (skiplistBackendOpen 1) = some x ∧
      RunsWell randLevel 12 (HoldsOnly ((Workload.valsize 1).Pair 3)) x
  := by
  obtain ⟨x, hrun⟩ := Option.isSome_iff_exists.mp (show
    (sharedMeasure randLevel 12 ((Workload.valsize 1).loaders steadyRandom 3 fun _ : Fin 2 => 0)
        ((Workload.valsize 1).workers steadyRandom (fun _ g => (0, g)) 3 (fun _ => 1)
          fun n => 70 * n.val.toUInt32)
        (twoLoaded 0 1) (oneInside (0 : Fin 2) 1) (skiplistBackendOpen 1)).isSome from rfl)
  have hvalsize : (Workload.valsize 1).Accepted 3 := ⟨by decide, le_rfl⟩
  have hfits : (Workload.valsize 1).WindowsFit 3 := by
    rw [Workload.WindowsFit]
    decide
  use x, hrun
  exact (sharedMeasure_sound randLevel_height drawsUsers_first hvalsize _ _ _ (SlHolds.open _)
    .empty _ _ (by decide)).2 hfits x hrun

end Keybench
