import Keybench.Lib.Client
import Keybench.Skiplist.Threads

/-!
# Clients of a shared skiplist

Threads run clients of one skiplist, each with calls that depend on the answers it got, and their
accesses interleave in every way the list's lock allows.  They call, are answered and note what they
do on a map whose calls happen at once, in the order in which the calls give the lock back, and some
thread can go on until all have ended (`lockedClients_spec`).
-/

namespace Keybench

open Access Interleave RwLock

/-- What a map answers to a call. -/
def SlCall.answer (m : Contents) : SlCall → SlAnswer
  | .put _ _ => .rc 0
  | .get k =>
    match m.lookup k with
    | some v => .value 1 (some v)
    | none => .value 0 none
  | .del k => .rc (if (m.lookup k).isSome then 1 else 0)
  | .range lo hi limit cb =>
    let out := scan (remember cb) (leading limit (m.slice lo hi)) []
    .rows out.passed out.state

/-- A map whose calls happen at once. -/
def mapServe (m : Contents) (call : SlCall) : Option (SlAnswer × Contents) :=
  some (call.answer m, call.apply m)

/-- What a map answers to calls one after the other. -/
def mapAnswers : Contents → List SlCall → List SlAnswer
  | _, [] => []
  | m, call :: calls => call.answer m :: mapAnswers (call.apply m) calls

/-- Calls one after the other, by themselves on a map. -/
theorem alone_askAll {I C E : Type} {clock : C → I × C} (calls : List SlCall) (c : C)
    (m : Contents) :
  (Client.askAll (A := SlAnswer) (I := I) (E := E) calls).alone mapServe clock c m
    = some (mapAnswers m calls, [], c, calls.foldl SlCall.apply m)
  := by
  induction calls generalizing m with
  | nil => rfl
  | cons call calls ih =>
    have hask : (Client.ask call).alone mapServe clock c m
        = some (call.answer m, ([] : List E), c, call.apply m) := rfl
    rw [Client.askAll, Client.alone_bind, hask, Option.bind_some, Client.alone_bind, ih]
    rfl

/-- A map has one answer to a call. -/
theorem Answers.eq_answer {m : Contents} {call : SlCall} {a : SlAnswer}
    (h : Answers m.lookup call a) :
  a = call.answer m
  := by
  cases call with
  | put k v => exact h
  | get k => exact h
  | del k => exact h
  | range lo hi limit cb =>
    obtain ⟨rows, hsorted, hrows, rfl⟩ := h
    obtain rfl : rows = m.slice lo hi := by
      apply OrderedMap.sorted_unique hsorted (m.slice_sorted lo hi)
      rintro ⟨k, v⟩
      rw [hrows, m.mem_slice]
    rfl

section Runs

variable {R : Type} {rand : R → ℕ × R} (hrand : ∀ r, 0 < (rand r).1 ∧ (rand r).1 ≤ slMaxLevel)
  {fuel : ℕ}

include hrand

/-- A whole call on a skiplist that holds a map. -/
theorem slObject_serve {s : Skiplist R} {m : Contents} (h : SlHolds s m)
    (hfuel : m.entries.length + 1 < fuel) (call : SlCall) :
  ∃ s', (slObject rand fuel).serve s call = some (call.answer m, s') ∧ SlHolds s' (call.apply m)
  := by
  obtain ⟨a, ha, hstep⟩ := slStep_spec m call
  obtain ⟨s', hs', h'⟩ := hstep hrand h hfuel
  refine ⟨s', ?_, h'⟩
  rw [← ha.eq_answer, ← hs']
  exact run_slBody rand fuel call s

variable {I E A' ι : Type} [DecidableEq ι]

/-- Threads whose calls on a skiplist happen at once, and threads on the map it holds. -/
theorem run_shared_map {x x' : Shared (Skiplist R) SlCall SlAnswer I E A' ι}
    {y : Shared Contents SlCall SlAnswer I E A' ι} {es : List (ι × Turn I)}
    (hholds : SlHolds x.state y.state) (hthread : x.thread = y.thread)
    (hfuel : y.state.entries.length + es.countP (fun e => e.2.isCall) < fuel)
    (hrun : run (sharedStep (slObject rand fuel).serve) x es = some x') :
  ∃ y', run (sharedStep mapServe) y es = some y' ∧ SlHolds x'.state y'.state ∧
    x'.thread = y'.thread ∧
    y'.state.entries.length ≤ y.state.entries.length + es.countP fun e => e.2.isCall
  := by
  induction es generalizing x y with
  | nil =>
    obtain rfl := Option.some.inj hrun
    exact ⟨y, rfl, hholds, hthread, le_rfl⟩
  | cons e es ih =>
    obtain ⟨x₁, hx₁, hrun⟩ := Option.bind_eq_some_iff.mp hrun
    obtain ⟨t, turn⟩ := e
    rw [List.countP_cons] at hfuel ⊢
    cases turn with
    | call =>
      obtain ⟨call, hcall, hx₁⟩ := Option.bind_eq_some_iff.mp hx₁
      obtain ⟨⟨a, s⟩, hserve, hx₁⟩ := Option.bind_eq_some_iff.mp hx₁
      obtain rfl := Option.some.inj hx₁
      have hcount : (if (t, (Turn.call : Turn I)).2.isCall then 1 else 0) = 1 := rfl
      rw [hcount] at hfuel ⊢
      have hone : y.state.entries.length + 1 < fuel := by omega
      obtain ⟨s', hs', hholds'⟩ := slObject_serve hrand hholds hone call
      obtain ⟨rfl, rfl⟩ := Prod.mk.inj (Option.some.inj (hserve.symm.trans hs'))
      have hlen := call.length_apply_le y.state
      have hrest : (call.apply y.state).entries.length + es.countP (fun e => e.2.isCall)
          < fuel := by
        omega
      obtain ⟨y', hy', hstate, hthread', hle⟩ := ih
        (y := ⟨call.apply y.state,
          Function.update y.thread t ((y.thread t).answer (call.answer y.state))⟩)
        hholds' (by rw [hthread]) hrest hrun
      refine ⟨y', ?_, hstate, hthread', ?_⟩
      · rw [run, sharedStep, ← hthread, hcall]
        simp only [mapServe, Option.bind_eq_bind, Option.bind_some]
        rw [hthread]
        apply hy'
      · dsimp only at hle
        omega
    | own m =>
      obtain ⟨z, hz, hx₁⟩ := Option.bind_eq_some_iff.mp hx₁
      obtain rfl := Option.some.inj hx₁
      have hcount : (if (t, (Turn.own m : Turn I)).2.isCall then 1 else 0) = 0 := rfl
      rw [hcount] at hfuel ⊢
      obtain ⟨y', hy', hstate, hthread', hle⟩ := ih
        (x := { x with thread := Function.update x.thread t z })
        (y := { y with thread := Function.update y.thread t z }) hholds
        (congrArg (Function.update · t z) hthread) hfuel hrun
      refine ⟨y', ?_, hstate, hthread', ?_⟩
      · rw [run, sharedStep, ← hthread, hz]
        simp only [Option.bind_eq_bind, Option.bind_some]
        rw [hthread]
        apply hy'
      · simpa using hle

/-- Threads run clients of one skiplist that holds a map, in any interleaving of their accesses.
They call, are answered and note what they do on the map when their calls happen at once, in the
order in which they give the lock back.  While no thread is in a call, the skiplist holds what the
map is then; a thread whose client has ended is in no call, and until all clients have ended some
thread can go on. -/
theorem lockedClients_spec {s : Skiplist R} {m : Contents} (hholds : SlHolds s m)
    {clients : ι → Client SlCall SlAnswer I E A'} {es : List (ι × LockTurn I)}
    {x : Locked (Skiplist R) SlCall SlAnswer I E A' ι}
    (hrun : run (lockedStep (slObject rand fuel)) (.start s clients) es = some x)
    (hfuel : m.entries.length + es.countP (fun e => e.2.isCall) + 1 < fuel) :
  ∃ y, run (sharedStep mapServe) (.start m clients) (es.flatMap fun e => e.2.turns e.1) = some y ∧
    x.thread = y.thread ∧
    y.state.entries.length ≤ m.entries.length + es.countP (fun e => e.2.isCall) ∧
    ((∀ t, x.config.phase t = .idle) → SlHolds x.config.state y.state) ∧
    (∀ t, (x.thread t).left.ended = true → x.config.phase t = .idle) ∧
    ∀ t, (x.thread t).left.ended = false → ∃ u, x.GoesOn (slObject rand fuel) u
  := by
  obtain ⟨z, hz, htracks⟩ := exists_shared hrun
  obtain ⟨⟨acts, hacts, hcalls⟩, hlog⟩ := exists_actions hrun
  have hanswered := answered_le hacts ∅ (by simp)
  rw [hcalls, Finset.card_empty, Nat.add_zero] at hanswered
  have hturns : m.entries.length + (es.flatMap fun e => e.2.turns e.1).countP (fun e => e.2.isCall)
      < fuel := by
    rw [hlog]
    omega
  obtain ⟨y, hy, hstate, hthread, hle⟩ := run_shared_map hrand (y := .start m clients) hholds rfl
    hturns hz
  rw [hlog] at hle
  have hsize : y.state.entries.length ≤ m.entries.length + x.config.log.length := hle
  refine ⟨y, hy, htracks.thread.trans hthread, by omega, ?_, fun t => htracks.idle_of_ended, ?_⟩
  · intro hidle
    rw [htracks.reached.state_of_idle hidle]
    apply hstate
  · intro t ht
    apply htracks.progress _ ht
    intro u call _
    have hone : y.state.entries.length + 1 < fuel := by omega
    obtain ⟨s', hs', -⟩ := slObject_serve hrand hstate hone call
    rw [hs']
    rfl

end Runs

end Keybench
