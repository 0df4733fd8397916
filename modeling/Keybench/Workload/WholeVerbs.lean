import Keybench.Workload.SharedRuns

/-!
# Verbs that happen at once

`kv.put`, `kv.get`, `kv.del`, `kv.range` and `kv.scan` call the skiplist once.  When the programs of
several threads use these verbs only, each verb happens at once: in every interleaving of the
accesses the threads come to what they come to when each takes whole verbs, in the order in which
they give the lock back (`exists_wholeVerbs_run`).  The workers of mixed, scan, valsize and cart use
such verbs, so on one skiplist they do what they do on any store that is a map
(`sharedWorkers_spec`).
-/

namespace Keybench

open Access Interleave RwLock

/-! ## Programs -/

/-- The calls of a verb that calls the skiplist once. -/
theorem calls_of_single {verb : KvVerb} (h : verb.single = true) {args : List LuaArg}
    {v : VerbCalls} (hv : verbCalls args verb = some v) :
  ∃ call, v.calls = [call]
  := by
  cases verb with
  | put =>
    obtain ⟨k, -, hv⟩ := Option.bind_eq_some_iff.mp hv
    obtain ⟨x, -, hv⟩ := Option.bind_eq_some_iff.mp hv
    obtain rfl := Option.some.inj hv
    exact ⟨_, rfl⟩
  | get | del =>
    obtain ⟨k, -, hv⟩ := Option.bind_eq_some_iff.mp hv
    obtain rfl := Option.some.inj hv
    exact ⟨_, rfl⟩
  | range =>
    obtain ⟨lo, -, hv⟩ := Option.bind_eq_some_iff.mp hv
    obtain ⟨hi, -, hv⟩ := Option.bind_eq_some_iff.mp hv
    obtain ⟨limit, -, hv⟩ := Option.bind_eq_some_iff.mp hv
    obtain rfl := Option.some.inj hv
    exact ⟨_, rfl⟩
  | mget | mput | mdel => cases h

/-- A verb with one call, and what comes after it. -/
theorem VerbCalls.client_bind {v : VerbCalls} {call : SlCall} (hcalls : v.calls = [call])
    (next : LuaAnswer → KvClient) :
  v.client >>= next = .input fun t0 => .call call fun a => .input fun t1 =>
    Client.tell (v.notes (t1 - t0) [a]) >>= fun _ => next (v.answer [a])
  := by
  have hcall : ∀ t0, ((Client.askAll v.calls >>= fun as => Client.read >>= fun t1 =>
        Client.tell (v.notes (t1 - t0) as) >>= fun _ => pure (v.answer as)) >>= next)
      = .call call fun a => .input fun t1 =>
        Client.tell (v.notes (t1 - t0) [a]) >>= fun _ => next (v.answer [a]) := by
    intro t0
    rw [hcalls]
    apply congrArg (Client.call call)
    funext a
    apply congrArg Client.input
    funext t1
    exact Client.tell_bind_pure (v.notes (t1 - t0) [a]) (v.answer [a]) next
  exact congrArg Client.input (funext hcall)

section Exact

variable {S C : Type} {be : KvBackend S} {contents : S → Contents} (hbe : be.Exact contents)
  (h : be.Settles) (clock : C → UInt64 × C)

/-- The next verb of a program has one call: as a client, and as a step on the store. -/
structure Begins (contents : S → Contents) (clock : C → UInt64 × C) (api : KvStore (C × S))
    (prog : LuaProg) (v : VerbCalls) (call : SlCall) (next : LuaAnswer → LuaProg) : Prop where
  calls : v.calls = [call]
  sound : ∀ as, (next (v.answer as)).Sound
  whole : ∀ a, (next a).Whole
  client : ∀ hplain, prog.client hplain = v.client >>= fun a => (next a).client (whole a).plain
  step : ∀ r : LuaRun (C × S), ∃ w', v.Leads contents clock r.worker w' ∧
    prog.step api r = some (next (v.answer [call.answer (contents r.worker.store.2)]),
      ⟨w', r.made ++ [v.made]⟩)

include hbe in
/-- A sound program has returned or has a next verb. -/
theorem exists_begins {prog : LuaProg} (hsound : prog.Sound) (hwhole : prog.Whole) :
  (∃ truthy, prog = .ret truthy) ∨
    ∃ v call next, Begins contents clock (be.store h clock) prog v call next
  := by
  cases hsound with
  | ret truthy => exact .inl ⟨truthy, rfl⟩
  | @call verb args next haccepts hsound =>
    right
    cases hv : verbCalls args verb with
    | none =>
      exact absurd (kvCall_rejected hv ⟨OrderedMap.empty, statsReset⟩) (haccepts _ mapStore _)
    | some v =>
      obtain ⟨call, hcalls⟩ := calls_of_single hwhole.1 hv
      refine ⟨v, call, next, hcalls, fun as => hsound _ (verbCalls_answers hv as), hwhole.2, ?_, ?_⟩
      · intro hplain
        rw [LuaProg.client]
        split
        · rename_i hnone
          cases hv.symm.trans hnone
        · rename_i v' hv'
          obtain rfl := Option.some.inj (hv.symm.trans hv')
          rfl
      · intro r
        obtain ⟨hmade, w', hleads, hcall⟩ := kvCall_calls hbe h clock hv r.worker
        rw [hcalls] at hcall
        use w', hleads
        rw [LuaProg.step_call hcall, hmade]
        rfl
  | @scan lo hi callable fn limit next haccepts hfn hsound =>
    right
    cases hargs : scanArgs lo hi callable limit with
    | none => exact absurd hargs haccepts
    | some x =>
      obtain ⟨lo', hi', limit'⟩ := x
      refine ⟨scanCalls lo' hi' limit' fun k v => (fn k v).ending.get (hwhole.1 k v), _, next, rfl,
        ?_, hwhole.2, ?_, ?_⟩
      · intro as
        obtain ⟨n, hn⟩ := scanCalls_answer lo' hi' limit' _
          (fun k v => (hfn k v).ending_ne (hwhole.1 k v)) as
        rw [hn]
        apply hsound
      · intro hplain
        rw [LuaProg.client]
        split
        · rename_i hnone
          cases hargs.symm.trans hnone
        · rename_i lo'' hi'' limit'' hargs'
          obtain ⟨rfl, rfl, rfl⟩ := Option.some.inj (hargs.symm.trans hargs')
          rfl
      · intro r
        have hends : ∀ (r : LuaRun (C × S)) k v, runLua (be.store h clock) (fn k v) r
            = ((fn k v).ending.get (hwhole.1 k v), r) :=
          fun r k v => runLua_of_ending (hwhole.1 k v) r
        obtain ⟨w', hleads, hscan⟩ := lScan_calls hbe h clock hends lo' hi' limit' r
        use w', hleads
        rw [LuaProg.step_scan hargs hscan]
        rfl

/-- A thread has counted what was noted. -/
structure Counts (notes : List KvNote) (y : LuaThread) : Prop where
  made : (noted notes).made = y.made
  stats : (noted notes).stats.CountsAs y.stats

/-- Counted events, whatever the latency. -/
theorem OpStats.CountsAs.events {s t : OpStats} (hst : s.CountsAs t) (v : VerbCalls)
    (ns ns' : UInt64) (as : List SlAnswer) :
  ((v.events ns as).foldl statsRecord s).CountsAs ((v.events ns' as).foldl statsRecord t)
  := by
  rw [VerbCalls.events, VerbCalls.events, List.foldl_cons, List.foldl_cons]
  have hrest : ∀ (events : List StatsEvent) (s t : OpStats), s.CountsAs t →
      (events.foldl statsRecord s).CountsAs (events.foldl statsRecord t) := by
    intro events
    induction events with
    | nil => exact fun _ _ hst => hst
    | cons e events ih => exact fun s t hst => ih _ _ (hst.record e)
  apply hrest
  exact (hst.latency v.op ns ns').record (.prim v.prims)

/-- Where a client is that runs a program, when the thread `y` has taken the verbs whose calls were
answered. -/
inductive Behind (contents : S → Contents) (clock : C → UInt64 × C) (api : KvStore (C × S))
    (x : Thread SlCall SlAnswer UInt64 KvNote LuaEnd) (y : LuaThread) : Prop
  /-- Between two verbs, with notes of the first left to take. -/
  | between (es : List KvNote) : y.prog.Sound → (hwhole : y.prog.Whole) →
    x.left = (Client.tell es >>= fun _ => y.prog.client hwhole.plain) →
    Counts (x.notes ++ es) y → Behind contents clock api x y
  /-- Before the call of a verb. -/
  | before {v : VerbCalls} {call : SlCall} {next : LuaAnswer → LuaProg} (t0 : UInt64)
    (hbegins : Begins contents clock api y.prog v call next) :
    (x.left = .call call fun a => .input fun t1 => Client.tell (v.notes (t1 - t0) [a]) >>= fun _ =>
      (next (v.answer [a])).client (hbegins.whole (v.answer [a])).plain) →
    Counts x.notes y → Behind contents clock api x y
  /-- After the call of a verb. -/
  | after {v : VerbCalls} {a : SlAnswer} (t0 : UInt64) : y.prog.Sound → (hwhole : y.prog.Whole) →
    (x.left = .input fun t1 => Client.tell (v.notes (t1 - t0) [a]) >>= fun _ =>
      y.prog.client hwhole.plain) →
    (∀ ns, Counts (x.notes ++ v.notes ns [a]) y) → Behind contents clock api x y

include hbe in
/-- The client of a sound program has ended or reads the clock before the call of a verb. -/
theorem client_begins {prog : LuaProg} (hsound : prog.Sound) (hwhole : prog.Whole) :
  (∃ truthy, prog = .ret truthy ∧ prog.client hwhole.plain = .done (.returned truthy)) ∨
    ∃ v call next, ∃ hbegins : Begins contents clock (be.store h clock) prog v call next,
      prog.client hwhole.plain = .input fun t0 => .call call fun a => .input fun t1 =>
        Client.tell (v.notes (t1 - t0) [a]) >>= fun _ =>
          (next (v.answer [a])).client (hbegins.whole (v.answer [a])).plain
  := by
  rcases exists_begins hbe h clock hsound hwhole with ⟨truthy, rfl⟩ | ⟨v, call, next, hbegins⟩
  · exact .inl ⟨truthy, rfl, rfl⟩
  · right
    use v, call, next, hbegins
    rw [hbegins.client, VerbCalls.client_bind hbegins.calls]

section Threads

variable {x x' : Thread SlCall SlAnswer UInt64 KvNote LuaEnd} {y : LuaThread}
  (hxy : Behind contents clock (be.store h clock) x y)

include hbe hxy

/-- A client that has ended. -/
theorem Behind.of_done {r : LuaEnd} (hdone : x.left = .done r) :
  y.prog = r.left ∧ Counts x.notes y
  := by
  cases hxy with
  | between es hsound hwhole hleft hcounts =>
    cases es with
    | nil =>
      have hclient : x.left = y.prog.client hwhole.plain := hleft
      rw [List.append_nil] at hcounts
      rcases client_begins hbe h clock hsound hwhole with ⟨_, hret, hend⟩ | ⟨_, _, _, _, hbegin⟩
      · obtain rfl := Client.done.inj ((hclient.trans hend).symm.trans hdone)
        exact ⟨hret, hcounts⟩
      · cases (hclient.trans hbegin).symm.trans hdone
    | cons e es => cases hleft.symm.trans hdone
  | before t0 hbegins hleft hcounts => cases hleft.symm.trans hdone
  | after t0 hsound hwhole hleft hcounts => cases hleft.symm.trans hdone

/-- A client that reads the clock. -/
theorem Behind.of_input {i : UInt64} {next : UInt64 → KvClient} (hinput : x.left = .input next)
    (hx' : x' = ⟨next i, x.calls, x.notes⟩) :
  Behind contents clock (be.store h clock) x' y
  := by
  subst hx'
  cases hxy with
  | between es hsound hwhole hleft hcounts =>
    cases es with
    | nil =>
      have hclient : x.left = y.prog.client hwhole.plain := hleft
      rw [List.append_nil] at hcounts
      rcases client_begins hbe h clock hsound hwhole with ⟨_, _, hend⟩ | ⟨_, _, _, hbegins, hbegin⟩
      · cases (hclient.trans hend).symm.trans hinput
      · obtain rfl := Client.input.inj ((hclient.trans hbegin).symm.trans hinput)
        exact .before i hbegins rfl hcounts
    | cons e es => cases hleft.symm.trans hinput
  | before t0 hbegins hleft hcounts => cases hleft.symm.trans hinput
  | after t0 hsound hwhole hleft hcounts =>
    obtain rfl := Client.input.inj (hleft.symm.trans hinput)
    exact .between _ hsound hwhole rfl (hcounts (i - t0))

/-- A client that takes a note. -/
theorem Behind.of_note {e : KvNote} {next : KvClient} (hnote : x.left = .note e next)
    (hx' : x' = ⟨next, x.calls, x.notes ++ [e]⟩) :
  Behind contents clock (be.store h clock) x' y
  := by
  subst hx'
  cases hxy with
  | between es hsound hwhole hleft hcounts =>
    cases es with
    | nil =>
      have hclient : x.left = y.prog.client hwhole.plain := hleft
      rcases client_begins hbe h clock hsound hwhole with ⟨_, _, hend⟩ | ⟨_, _, _, _, hbegin⟩
      · cases (hclient.trans hend).symm.trans hnote
      · cases (hclient.trans hbegin).symm.trans hnote
    | cons e' es =>
      have hclient : x.left = .note e' (Client.tell es >>= fun _ =>
        y.prog.client hwhole.plain) := hleft
      obtain ⟨rfl, rfl⟩ := Client.note.inj (hclient.symm.trans hnote)
      apply Behind.between es hsound hwhole rfl
      simpa using hcounts
  | before t0 hbegins hleft hcounts => cases hleft.symm.trans hnote
  | after t0 hsound hwhole hleft hcounts => cases hleft.symm.trans hnote

/-- A client that calls is before a verb of its thread. -/
theorem Behind.of_call {call : SlCall} {next' : SlAnswer → KvClient}
    (hcall : x.left = .call call next') :
  ∃ t0 v next, ∃ hbegins : Begins contents clock (be.store h clock) y.prog v call next,
    (next' = fun a => .input fun t1 => Client.tell (v.notes (t1 - t0) [a]) >>= fun _ =>
      (next (v.answer [a])).client (hbegins.whole (v.answer [a])).plain) ∧
    Counts x.notes y
  := by
  cases hxy with
  | between es hsound hwhole hleft hcounts =>
    cases es with
    | nil =>
      have hclient : x.left = y.prog.client hwhole.plain := hleft
      rcases client_begins hbe h clock hsound hwhole with ⟨_, _, hend⟩ | ⟨_, _, _, _, hbegin⟩
      · cases (hclient.trans hend).symm.trans hcall
      · cases (hclient.trans hbegin).symm.trans hcall
    | cons e es => cases hleft.symm.trans hcall
  | before t0 hbegins hleft hcounts =>
    obtain ⟨rfl, rfl⟩ := Client.call.inj (hleft.symm.trans hcall)
    exact ⟨t0, _, _, hbegins, rfl, hcounts⟩
  | after t0 hsound hwhole hleft hcounts => cases hleft.symm.trans hcall

end Threads

variable {ι : Type} [DecidableEq ι]

/-- Clients on a map, and threads that take whole verbs on a store. -/
structure Simulates (contents : S → Contents) (clock : C → UInt64 × C) (api : KvStore (C × S))
    (x : Shared Contents SlCall SlAnswer UInt64 KvNote LuaEnd ι) (y : LuaThreads (C × S) ι) :
    Prop where
  state : contents y.store.2 = x.state
  thread : ∀ t, Behind contents clock api (x.thread t) (y.thread t)

/-- The thread whose call is answered. -/
def caller {I : Type} : ι × Turn I → Option ι
  | (t, .call) => some t
  | (_, .own _) => none

omit [DecidableEq ι] in
/-- A turn that takes no verb. -/
theorem Simulates.of_own {x x' : Shared Contents SlCall SlAnswer UInt64 KvNote LuaEnd ι}
    {y : LuaThreads (C × S) ι} (hxy : Simulates contents clock (be.store h clock) x y) {t : ι}
    (hframe : ∀ u ≠ t, x'.thread u = x.thread u) (hstate : x'.state = x.state)
    (ht : Behind contents clock (be.store h clock) (x'.thread t) (y.thread t)) :
  Simulates contents clock (be.store h clock) x' y
  := by
  constructor
  case state => rw [hxy.state, hstate]
  case thread =>
    intro u
    rcases eq_or_ne u t with rfl | hne
    · exact ht
    · rw [hframe u hne]
      apply hxy.thread

include hbe in
/-- A turn is a whole verb when it answers a call, and nothing otherwise. -/
theorem Simulates.step {x x' : Shared Contents SlCall SlAnswer UInt64 KvNote LuaEnd ι}
    {y : LuaThreads (C × S) ι} (hxy : Simulates contents clock (be.store h clock) x y)
    {e : ι × Turn UInt64} (hstep : sharedStep mapServe x e = some x') :
  ∃ y', run (luaStep (be.store h clock)) y (caller e).toList = some y' ∧
    Simulates contents clock (be.store h clock) x' y'
  := by
  obtain ⟨t, turn⟩ := e
  obtain ⟨hframe, hcase⟩ := sharedStep_cases hstep
  have hbehind := hxy.thread t
  rcases hcase with ⟨call, a, _, rfl, hcall, hserve, hthread⟩ |
    ⟨i, _, rfl, hinput, hstate, hthread⟩ | ⟨e, _, rfl, hnote, hstate, hthread⟩
  · obtain ⟨t0, v, next, hbegins, rfl, hcounts⟩ := hbehind.of_call hbe h clock hcall
    obtain ⟨rfl, hstate⟩ := Prod.mk.inj (Option.some.inj hserve)
    obtain ⟨w', hleads, hverb⟩ := hbegins.step (y.run t)
    have hstate' : contents (y.run t).worker.store.2 = x.state := hxy.state
    rw [hstate'] at hverb
    let after : LuaThread :=
      ⟨next (v.answer [call.answer x.state]), w'.stats, (y.thread t).made ++ [v.made]⟩
    have hnext : luaStep (be.store h clock) y t
        = some ⟨w'.store, Function.update y.thread t after⟩ := by
      rw [luaStep, hverb]
      rfl
    refine ⟨⟨w'.store, Function.update y.thread t after⟩, ?_, ?_⟩
    · change run _ y [t] = _
      rw [run, hnext]
      rfl
    · constructor
      case state =>
        have hwrites := hleads.writes
        rw [hbegins.calls] at hwrites
        rw [← hstate, ← hstate']
        exact hwrites
      case thread =>
        intro u
        dsimp only
        rcases eq_or_ne u t with rfl | hne
        · rw [Function.update_self, hthread]
          apply Behind.after t0 (hbegins.sound _) (hbegins.whole _) rfl
          intro ns
          constructor
          case made => rw [noted_append, hcounts.made]
          case stats =>
            rw [noted_append]
            change OpStats.CountsAs _ w'.stats
            rw [hleads.stats, hbegins.calls, hstate']
            exact hcounts.stats.events v _ _ _
        · rw [Function.update_of_ne hne, hframe u hne]
          apply hxy.thread
  · exact ⟨y, rfl, hxy.of_own h clock hframe hstate (hbehind.of_input hbe h clock hinput hthread)⟩
  · exact ⟨y, rfl, hxy.of_own h clock hframe hstate (hbehind.of_note hbe h clock hnote hthread)⟩

include hbe in
/-- Clients on a map do what threads do that take whole verbs, in the order in which the calls are
answered. -/
theorem exists_wholeVerbs {progs : ι → LuaProg} (hsound : ∀ t, (progs t).Sound)
    (hwhole : ∀ t, (progs t).Whole) {cs : C × S} {es : List (ι × Turn UInt64)}
    {x : Shared Contents SlCall SlAnswer UInt64 KvNote LuaEnd ι}
    (hrun : run (sharedStep mapServe)
      (.start (contents cs.2) fun t => (progs t).client (hwhole t).plain) es = some x) :
  ∃ y, run (luaStep (be.store h clock)) (.begin cs progs) (es.filterMap caller) = some y ∧
    Simulates contents clock (be.store h clock) x y
  := by
  apply run_induct (P := fun es x => ∃ y, run (luaStep (be.store h clock)) (.begin cs progs)
    (es.filterMap caller) = some y ∧ Simulates contents clock (be.store h clock) x y) hrun
  · refine ⟨_, rfl, rfl, ?_⟩
    intro t
    exact .between [] (hsound t) (hwhole t) rfl ⟨rfl, rfl, rfl, rfl, rfl, fun _ => rfl⟩
  · rintro es x e x' ⟨y, hy, hxy⟩ hstep
    obtain ⟨y', hy', hxy'⟩ := hxy.step hbe h clock hstep
    use y'
    constructor
    · have hlast : [e].filterMap caller = (caller e).toList := by
        rw [List.filterMap_cons]
        cases caller e <;> rfl
      rw [List.filterMap_append, hlast, run_append, hy]
      exact hy'
    · exact hxy'

end Exact

/-! ## Programs on one skiplist -/

section Skiplist

variable {R C ι : Type} [DecidableEq ι] {rand : R → ℕ × R}
  (hrand : ∀ r, 0 < (rand r).1 ∧ (rand r).1 ≤ slMaxLevel) (clock : C → UInt64 × C)

/-- The threads that give the lock back, in order. -/
def leavers {I : Type} (es : List (ι × LockTurn I)) : List ι :=
  es.filterMap fun e =>
    match e.2 with
    | .leave => some e.1
    | _ => none

omit [DecidableEq ι] in
/-- The calls that are answered are those that give the lock back. -/
theorem filterMap_caller {I : Type} (es : List (ι × LockTurn I)) :
  (es.flatMap fun e => e.2.turns e.1).filterMap caller = leavers es
  := by
  induction es with
  | nil => rfl
  | cons e es ih =>
    obtain ⟨t, turn⟩ := e
    rw [List.flatMap_cons, List.filterMap_append, ih, leavers, leavers, List.filterMap_cons]
    cases turn <;> rfl

/-- Threads run sound programs on one skiplist, with verbs that call it once, in any interleaving of
the accesses.  When they take whole verbs in the order in which they give the lock back, they come
to the same contents, and a thread that has ended ends in the same way with the same counts. -/
theorem exists_wholeVerbs_run {progs : ι → LuaProg} (hsound : ∀ t, (progs t).Sound)
    (hwhole : ∀ t, (progs t).Whole) {s : Skiplist R} {cs : C × HeldSkiplist R}
    (hholds : SlHolds s cs.2.contents) {es : List (ι × LockTurn UInt64)} {fuel : ℕ}
    {x : SharedThreads R ι}
    (hrun : run (lockedStep (slObject rand fuel))
      (.start s fun t => (progs t).client (hwhole t).plain) es = some x)
    (hfuel : cs.2.contents.entries.length + es.countP (fun e => e.2.isCall) + 1 < fuel) :
  ∃ y, run (luaStep (skiplistStore hrand clock)) (.begin cs progs) (leavers es) = some y ∧
    ((∀ t, x.config.phase t = .idle) → SlHolds x.config.state y.store.2.contents) ∧
    ∀ t r, (x.thread t).left = .done r →
      (y.thread t).prog = r.left ∧ Counts (x.thread t).notes (y.thread t)
  := by
  obtain ⟨z, hz, hthread, -, hquiet, -⟩ := lockedClients_spec hrand hholds hrun hfuel
  obtain ⟨y, hy, hsim⟩ := exists_wholeVerbs (skiplist_exact hrand)
    (skiplist_reliable hrand).settles clock hsound hwhole hz
  rw [filterMap_caller] at hy
  refine ⟨y, hy, ?_, ?_⟩
  · intro hidle
    rw [hsim.state]
    exact hquiet hidle
  · intro t r hdone
    rw [hthread] at hdone ⊢
    exact (hsim.thread t).of_done (skiplist_exact hrand) (skiplist_reliable hrand).settles clock
      hdone

end Skiplist

/-! ## Workers -/

/-- Programs that call once in each verb, one after the other. -/
theorem LuaProg.Whole.andThen {prog prog' : LuaProg} (h : prog.Whole) (h' : prog'.Whole) :
  (prog.andThen prog').Whole
  := by
  induction prog with
  | ret truthy => apply h'
  | raise => trivial
  | call verb args next ih => exact ⟨h.1, fun a => ih a (h.2 a)⟩
  | scan lo hi callable fn limit next ihfn ihnext => exact ⟨h.1, fun a => ihnext a (h.2 a)⟩

/-- The workloads that hand no batches over when they run. -/
def Workload.unbatched : Workload → Bool
  | .batch _ => false
  | .mixed | .scan | .valsize _ | .cart _ => true

section Workers

variable {G : Type} {rng : LuaRandom G} {hot : ℤ → G → ℤ × G} {items : ℤ}

/-- A call on the keys of an index. -/
theorem IndexCall.single {value : Option Bytes} {verb : KvVerb} {args : List LuaArg}
    (h : IndexCall value items verb args) :
  verb.single = true
  := by
  cases h <;> rfl

/-- A call of `run` that hands no batch over. -/
theorem Workload.Call.whole {W : Workload} (hW : W.unbatched = true) {prog : LuaProg}
    (h : W.Call items prog) :
  prog.Whole
  := by
  cases h with
  | mixed hcall => exact callOnce_whole hcall.single _
  | valsize hcall => exact callOnce_whole hcall.single _
  | scan start => apply scanOnce_whole
  | cart op => apply op.prog_whole
  | mget js | mput js => cases hW

/-- A worker that hands no batches over. -/
theorem worker_whole {W : Workload} (hW : W.unbatched = true) (n : ℕ) (g : G) :
  (W.worker rng hot items n g).Whole
  := by
  apply worker_induct trivial trivial (fun _ _ h h' => h.andThen h')
  exact fun _ hcall => hcall.whole hW

variable {R S : Type} {rand : R → ℕ × R} (hrand : ∀ r, 0 < (rand r).1 ∧ (rand r).1 ≤ slMaxLevel)

include hrand

/-- Workers of mixed, scan, valsize or cart on one skiplist, with parameters in range and windows
that do not wrap, in any interleaving of the accesses.  When they take whole verbs on a store that
is a map with the same contents, in the order in which they give the lock back, they come to the
same contents, and a worker that has ended ends in the same way, with the same calls made and the
same counts. -/
theorem sharedWorkers_spec (hhot : DrawsUsers hot) {W : Workload} (hW : W.Accepted items)
    (hfits : W.WindowsFit items) (hunbatched : W.unbatched = true) {N : ℕ} (calls : Fin N → ℕ)
    (g : Fin N → G) {api : KvStore S} {c : S → Contents} (h : api.IsMap c) {s : Skiplist R} {s' : S}
    (hholds : SlHolds s (c s')) {es : List (Fin N × LockTurn UInt64)} {fuel : ℕ}
    {x : SharedThreads R (Fin N)}
    (hrun : run (lockedStep (slObject rand fuel)) (.start s (W.workers rng hot items calls g)) es
      = some x)
    (hfuel : (c s').entries.length + es.countP (fun e => e.2.isCall) + 1 < fuel) :
  ∃ y, run (luaStep api) (.begin s' fun n => W.worker rng hot items (calls n) (g n)) (leavers es)
      = some y ∧
    ((∀ n, x.config.phase n = .idle) → SlHolds x.config.state (c y.store)) ∧
    ∀ n r, (x.thread n).left = .done r →
      (y.thread n).prog = r.left ∧ Counts (x.thread n).notes (y.thread n)
  := by
  let cs : Unit × HeldSkiplist R := ((), ⟨s, c s', hholds⟩)
  have hheld : SlHolds s cs.2.contents := hholds
  obtain ⟨z, hz, hidle, hdone⟩ := exists_wholeVerbs_run hrand (fun u : Unit => (0, u))
    (fun n => worker_sound hhot hW hfits (calls n) (g n))
    (fun n => worker_whole hunbatched (calls n) (g n)) hheld hrun hfuel
  have hbegin : (LuaThreads.begin cs fun n => W.worker rng hot items (calls n) (g n)).Agrees
      (fun cs => cs.2.contents) c (.begin s' fun n => W.worker rng hot items (calls n) (g n)) := by
    apply LuaThreads.Agrees.begin
    · rfl
    · exact fun n => worker_portable W (calls n) (g n)
  have hrel := run_luaStep_agrees (skiplistStore_isMap hrand fun u : Unit => (0, u)) h hbegin
    (leavers es)
  rw [hz] at hrel
  generalize hy : run (luaStep api) _ (leavers es) = o at hrel
  cases hrel with
  | @some _ y hagrees =>
    refine ⟨y, rfl, ?_, ?_⟩
    · rw [← hagrees.contents]
      exact hidle
    · intro n r hleft
      obtain ⟨hprog, hcounts⟩ := hdone n r hleft
      have hthread := hagrees.thread n
      constructor
      · rw [← hthread.prog, hprog]
      · exact ⟨hcounts.made.trans hthread.made, hcounts.stats.trans hthread.stats⟩

end Workers

/-- Turns of two workers, of one call and of two: each comes to the lock while the other is in a
call or between two. -/
def twoCallers {ι : Type} (t u : ι) : List (ι × LockTurn UInt64) :=
  [[(t, .own (.input 3)), (t, .call), (t, .enter), (u, .own (.input 4)), (t, .access), (u, .call)],
    untilLeft t 21, [(u, .enter), (t, .own (.input 5))], untilLeft u 10,
    [(t, .own .note), (u, .own (.input 6))], List.replicate 3 (u, .own .note),
    [(u, .own (.input 7)), (u, .call), (u, .enter), (t, .own .note)], untilLeft u 25,
    [(u, .own (.input 8)), (t, .own .note)], List.replicate 3 (u, .own .note)].flatten

/-- Two workers of cart on two users: the first puts a line of a user, the second checks that user
out. -/
theorem sharedWorkers_spec_example :
  ∃ (x : SharedThreads UInt64 (Fin 2)) (y : LuaThreads Contents (Fin 2)),
    run (lockedStep (slObject randLevel 8)) (.start (skiplistBackendOpen 1)
        ((Workload.cart 2).workers steadyRandom (fun _ g => (0, g)) 20 (fun _ : Fin 2 => 1)
          fun n => 96 * n.val.toUInt32)) (twoCallers 0 1) = some x ∧
      run (luaStep mapStore) (.begin OrderedMap.empty fun n : Fin 2 =>
        (Workload.cart 2).worker steadyRandom (fun _ g => (0, g)) 20 1 (96 * n.val.toUInt32))
        [0, 1, 1] = some y ∧
      ∀ n, (y.thread n).prog.returned = true ∧ Counts (x.thread n).notes (y.thread n)
  := by
  have hends : (run (lockedStep (slObject randLevel 8)) (.start (skiplistBackendOpen 1)
        ((Workload.cart 2).workers steadyRandom (fun _ g => (0, g)) 20 (fun _ : Fin 2 => 1)
          fun n => 96 * n.val.toUInt32)) (twoCallers 0 1)).map
      (fun x => (returned (x.thread 0).left, returned (x.thread 1).left))
      = some (true, true) := rfl
  obtain ⟨x, hrun, hleft⟩ := Option.map_eq_some_iff.mp hends
  have hcart : (Workload.cart 2).Accepted 20 := ⟨by decide, by decide⟩
  obtain ⟨y, hy, -, hthreads⟩ := sharedWorkers_spec randLevel_height drawsUsers_first hcart trivial
    rfl (fun _ : Fin 2 => 1) (fun n => 96 * n.val.toUInt32) mapStore_isMap (SlHolds.open _) hrun
    (by decide)
  have hleavers : leavers (twoCallers (0 : Fin 2) 1) = [0, 1, 1] := rfl
  rw [hleavers] at hy
  refine ⟨x, y, hrun, hy, ?_⟩
  intro n
  obtain ⟨truthy, hdone⟩ := exists_done_of_returned (returned_of_both hleft n)
  obtain ⟨hprog, hcounts⟩ := hthreads n _ hdone
  constructor
  · rw [hprog]
    rfl
  · exact hcounts

end Keybench
