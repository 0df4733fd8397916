import Keybench.Lib.RwLock

/-!
# Clients of an object

A client calls operations of an object, one after the other, and what it does next may depend on
the answers.  Beside that it reads inputs, such as a clock, and takes notes.  `sharedStep` lets the
clients of several threads call operations that happen at once.  `lockedStep` lets them call those
of an object that a readers and writer lock guards: a call waits for the lock, accesses the object
and gives the lock back.

In every interleaving of the accesses the threads call, are answered and note what they do when
each operation happens at once, in the order in which the calls give the lock back
(`exists_shared`), and some thread can go on until all clients have ended (`Tracks.progress`).
-/

namespace RwLock

open Access Interleave

/-! ## Clients -/

/-- A client of operations `Op` with answers `A`, inputs `I`, notes `E` and a result `R`. -/
inductive Client (Op A I E R : Type) where
  /-- The client has ended. -/
  | done (r : R)
  /-- Call an operation and go on with its answer. -/
  | call (op : Op) (next : A → Client Op A I E R)
  /-- Read an input and go on with it. -/
  | input (next : I → Client Op A I E R)
  /-- Take a note. -/
  | note (e : E) (next : Client Op A I E R)

namespace Client

variable {Op A I E R R' : Type}

/-- A client after another, with the result of the first. -/
def bind : Client Op A I E R → (R → Client Op A I E R') → Client Op A I E R'
  | done r, q => q r
  | call op next, q => call op fun a => (next a).bind q
  | input next, q => input fun i => (next i).bind q
  | note e next, q => note e (next.bind q)

instance : Monad (Client Op A I E) where
  pure := done
  bind := bind

/-- One call. -/
def ask (op : Op) : Client Op A I E A := call op done

/-- Calls one after the other. -/
def askAll : List Op → Client Op A I E (List A)
  | [] => done []
  | op :: ops => do
    let a ← ask op
    let as ← askAll ops
    pure (a :: as)

/-- One input. -/
def read : Client Op A I E I := input done

/-- Notes one after the other. -/
def tell : List E → Client Op A I E Unit
  | [] => done ()
  | e :: es => note e (tell es)

/-- The client has ended. -/
def ended : Client Op A I E R → Bool
  | done _ => true
  | _ => false

/-- A client by itself: its result, its notes, and what is left of the inputs and of the state,
with operations that happen at once. -/
def alone {S C : Type} (serve : S → Op → Option (A × S)) (clock : C → I × C) :
    Client Op A I E R → C → S → Option (R × List E × C × S)
  | done r, c, s => some (r, [], c, s)
  | call op next, c, s => do
    let (a, s) ← serve s op
    (next a).alone serve clock c s
  | input next, c, s => (next (clock c).1).alone serve clock (clock c).2 s
  | note e next, c, s => do
    let (r, es, c, s) ← next.alone serve clock c s
    some (r, e :: es, c, s)

/-- A client by itself after another. -/
theorem alone_bind {S C : Type} {serve : S → Op → Option (A × S)} {clock : C → I × C}
    (p : Client Op A I E R) (q : R → Client Op A I E R') (c : C) (s : S) :
  (p >>= q).alone serve clock c s
    = (p.alone serve clock c s).bind fun x =>
        ((q x.1).alone serve clock x.2.2.1 x.2.2.2).map fun y => (y.1, x.2.1 ++ y.2.1, y.2.2)
  := by
  change (p.bind q).alone serve clock c s = _
  induction p generalizing c s with
  | done r =>
    rw [bind, alone, Option.bind_some]
    cases (q r).alone serve clock c s <;> rfl
  | call op next ih =>
    rw [bind, alone, alone]
    cases serve s op with
    | none => rfl
    | some x => apply ih
  | input next ih => apply ih
  | note e next ih =>
    rw [bind, alone, alone, ih]
    cases next.alone serve clock c s with
    | none => rfl
    | some x =>
      simp only [Option.bind_eq_bind, Option.bind_some]
      cases (q x.1).alone serve clock x.2.2.1 x.2.2.2 <;> rfl

/-- Notes, then a result, then what depends on it. -/
theorem tell_bind_pure (es : List E) (r : R) (q : R → Client Op A I E R') :
  (tell es >>= fun _ => pure r) >>= q = (tell es >>= fun _ => q r : Client Op A I E R')
  := by
  induction es with
  | nil => rfl
  | cons e es ih => exact congrArg (note e) ih

/-- Notes by themselves. -/
theorem alone_tell {S C : Type} {serve : S → Op → Option (A × S)} {clock : C → I × C}
    (es : List E) (c : C) (s : S) :
  (tell es : Client Op A I E Unit).alone serve clock c s = some ((), es, c, s)
  := by
  induction es with
  | nil => rfl
  | cons e es ih =>
    rw [tell, alone, ih]
    rfl

end Client

/-! ## Threads -/

section Threads

variable {S Op A I E R ι : Type}

/-- A thread that runs a client. -/
structure Thread (Op A I E R : Type) where
  /-- What is left of the client. -/
  left : Client Op A I E R
  /-- The calls that were answered. -/
  calls : List (Op × A)
  /-- The notes taken. -/
  notes : List E

/-- What a thread does without the object. -/
inductive Own (I : Type) where
  /-- It takes a note. -/
  | note
  /-- It reads an input. -/
  | input (i : I)

namespace Thread

/-- A thread that has not begun. -/
def start (client : Client Op A I E R) : Thread Op A I E R := ⟨client, [], []⟩

/-- The operation that a thread calls next. -/
def wants (y : Thread Op A I E R) : Option Op :=
  match y.left with
  | .call op _ => some op
  | _ => none

/-- A thread whose call is answered. -/
def answer (y : Thread Op A I E R) (a : A) : Thread Op A I E R :=
  match y.left with
  | .call op next => ⟨next a, y.calls ++ [(op, a)], y.notes⟩
  | _ => y

/-- A thread goes on without the object. -/
def own (y : Thread Op A I E R) : Own I → Option (Thread Op A I E R)
  | .note =>
    match y.left with
    | .note e next => some ⟨next, y.calls, y.notes ++ [e]⟩
    | _ => none
  | .input i =>
    match y.left with
    | .input next => some ⟨next i, y.calls, y.notes⟩
    | _ => none

/-- A thread has ended, calls an operation, or goes on without the object, whatever its input. -/
theorem cases (y : Thread Op A I E R) :
  y.left.ended ∨ (∃ op, y.wants = some op) ∨ (y.own .note).isSome ∨ ∀ i, (y.own (.input i)).isSome
  := by
  obtain ⟨left, calls, notes⟩ := y
  cases left with
  | done r => exact .inl rfl
  | call op next => exact .inr (.inl ⟨op, rfl⟩)
  | input next => exact .inr (.inr (.inr fun i => rfl))
  | note e next => exact .inr (.inr (.inl rfl))

end Thread

/-! ## Operations that happen at once -/

/-- Threads that share a state. -/
structure Shared (S Op A I E R ι : Type) where
  /-- The state. -/
  state : S
  /-- The threads. -/
  thread : ι → Thread Op A I E R

/-- What a thread does next. -/
inductive Turn (I : Type) where
  /-- It calls its operation, which is answered at once. -/
  | call
  /-- It goes on without the object. -/
  | own (m : Own I)

/-- Threads that begin on a state. -/
def Shared.start (s : S) (clients : ι → Client Op A I E R) : Shared S Op A I E R ι :=
  ⟨s, fun t => .start (clients t)⟩

variable [DecidableEq ι]

/-- A thread takes a turn when operations happen at once. -/
def sharedStep (serve : S → Op → Option (A × S)) (x : Shared S Op A I E R ι) :
    ι × Turn I → Option (Shared S Op A I E R ι)
  | (t, .call) => do
    let op ← (x.thread t).wants
    let (a, s) ← serve x.state op
    some ⟨s, Function.update x.thread t ((x.thread t).answer a)⟩
  | (t, .own m) => do
    let y ← (x.thread t).own m
    some { x with thread := Function.update x.thread t y }

/-! ## Operations under the lock -/

/-- Threads that share an object and its lock. -/
structure Locked (S Op A I E R ι : Type) where
  /-- The object and where the threads are with it. -/
  config : Config S Op A ι
  /-- The threads. -/
  thread : ι → Thread Op A I E R

/-- What a thread does next. -/
inductive LockTurn (I : Type) where
  /-- It calls its operation. -/
  | call
  /-- It takes the lock. -/
  | enter
  /-- It accesses the object. -/
  | access
  /-- It gives the lock back, and is answered. -/
  | leave
  /-- It goes on without the object. -/
  | own (m : Own I)

/-- Threads that begin on an object in a state. -/
def Locked.start (s : S) (clients : ι → Client Op A I E R) : Locked S Op A I E R ι :=
  ⟨RwLock.start s, fun t => .start (clients t)⟩

/-- A thread takes a turn under the lock. -/
def lockedStep (obj : Object S Op A) (x : Locked S Op A I E R ι) :
    ι × LockTurn I → Option (Locked S Op A I E R ι)
  | (t, .call) => (x.thread t).wants.bind fun op =>
      (step obj x.config (t, .call op)).map fun c => { x with config := c }
  | (t, .enter) => (step obj x.config (t, .enter)).map fun c => { x with config := c }
  | (t, .access) => (step obj x.config (t, .access)).map fun c => { x with config := c }
  | (t, .leave) =>
    match x.config.phase t with
    | .inside _ (.done a) => (step obj x.config (t, .leave)).map fun c =>
        ⟨c, Function.update x.thread t ((x.thread t).answer a)⟩
    | _ => none
  | (t, .own m) =>
    match x.config.phase t with
    | .idle => ((x.thread t).own m).map fun y =>
        { x with thread := Function.update x.thread t y }
    | _ => none

/-! ## Refinement -/

/-- The turns of a thread whose operations happen at once: a call happens when the lock is given
back. -/
def LockTurn.turns (t : ι) : LockTurn I → List (ι × Turn I)
  | .leave => [(t, .call)]
  | .own m => [(t, .own m)]
  | _ => []

/-- Threads under the lock and threads whose operations happen at once are in the same places, and
the object is where the answered calls lead. -/
structure Tracks (obj : Object S Op A) (s₀ : S) (x : Locked S Op A I E R ι)
    (y : Shared S Op A I E R ι) : Prop where
  reached : Reached obj s₀ x.config y.state
  thread : x.thread = y.thread
  wants : ∀ t, ∀ op ∈ (x.config.phase t).pending, (x.thread t).wants = some op

/-- What a whole operation does to a state. -/
def Object.serve (obj : Object S Op A) (s : S) (op : Op) : Option (A × S) := (obj.body op).run s

variable {obj : Object S Op A} {s₀ : S} {x x' : Locked S Op A I E R ι}
  {y : Shared S Op A I E R ι}

/-- A thread that wants an operation has not ended, and the answer moves it on. -/
theorem Thread.wants_eq {y : Thread Op A I E R} {op : Op} (h : y.wants = some op) :
  ∃ next, y.left = .call op next ∧
    ∀ a, y.answer a = ⟨next a, y.calls ++ [(op, a)], y.notes⟩
  := by
  obtain ⟨left, calls, notes⟩ := y
  cases left with
  | call op' next =>
    obtain rfl := Option.some.inj h
    exact ⟨next, rfl, fun a => rfl⟩
  | done r => cases h
  | input next => cases h
  | note e next => cases h

/-- The operation of a thread after a thread has moved. -/
theorem Config.move_pending {c : Config S Op A ι} {t u : ι} {φ : Phase S Op A} {op : Op}
    (h : op ∈ (c.move t φ u).pending) :
  (u = t ∧ op ∈ φ.pending) ∨ (u ≠ t ∧ op ∈ (c.phase u).pending)
  := by
  rcases eq_or_ne u t with rfl | hne
  · rw [move_self] at h
    exact .inl ⟨rfl, h⟩
  · rw [c.move_of_ne hne] at h
    exact .inr ⟨hne, h⟩

omit [DecidableEq ι] in
/-- Threads that begin. -/
theorem Tracks.start (s₀ : S) (clients : ι → Client Op A I E R) :
  Tracks obj s₀ (.start s₀ clients) (.start s₀ clients)
  := by
  constructor
  case reached => apply Reached.start
  case thread => rfl
  case wants =>
    intro t op hop
    cases hop

omit [DecidableEq ι] in
/-- A thread whose client has ended is in no call. -/
theorem Tracks.idle_of_ended (h : Tracks obj s₀ x y) {t : ι}
    (hend : (x.thread t).left.ended = true) :
  x.config.phase t = .idle
  := by
  have hpending : (x.config.phase t).pending = [] := by
    rw [List.eq_nil_iff_forall_not_mem]
    intro op hop
    obtain ⟨next, hleft, -⟩ := Thread.wants_eq (h.wants t op hop)
    rw [hleft] at hend
    cases hend
  cases hphase : x.config.phase t with
  | idle => rfl
  | waiting op =>
    rw [hphase] at hpending
    cases hpending
  | inside op p =>
    rw [hphase] at hpending
    cases hpending

/-- A turn under the lock is a run of the threads whose operations happen at once. -/
theorem Tracks.step {t : ι} {e : LockTurn I} (h : Tracks obj s₀ x y)
    (hstep : lockedStep obj x (t, e) = some x') :
  ∃ y', run (sharedStep obj.serve) y (e.turns t) = some y' ∧ Tracks obj s₀ x' y'
  := by
  cases e with
  | call =>
    obtain ⟨op, hop, hstep⟩ := Option.bind_eq_some_iff.mp hstep
    obtain ⟨c, hc, rfl⟩ := Option.map_eq_some_iff.mp hstep
    rcases step_cases obj hc with ⟨op', heq, hphase, rfl⟩ | ⟨_, _, ⟨⟩, -⟩ | ⟨_, _, _, _, ⟨⟩, -⟩ |
      ⟨_, _, _, ⟨⟩, -⟩
    obtain rfl := Action.call.inj heq
    use y, rfl
    constructor
    case reached => apply h.reached.call hphase
    case thread => apply h.thread
    case wants =>
      intro u op' hop'
      rcases x.config.move_pending hop' with ⟨rfl, hmem⟩ | ⟨-, hmem⟩
      · obtain rfl := List.mem_singleton.mp hmem
        apply hop
      · apply h.wants u op' hmem
  | enter =>
    obtain ⟨c, hc, rfl⟩ := Option.map_eq_some_iff.mp hstep
    rcases step_cases obj hc with ⟨_, ⟨⟩, -⟩ | ⟨op, l, -, hphase, hl, rfl⟩ | ⟨_, _, _, _, ⟨⟩, -⟩ |
      ⟨_, _, _, ⟨⟩, -⟩
    use y, rfl
    constructor
    case reached => apply h.reached.enter hphase hl
    case thread => apply h.thread
    case wants =>
      intro u op' hop'
      apply h.wants u op'
      rcases x.config.move_pending hop' with ⟨rfl, hmem⟩ | ⟨-, hmem⟩
      · rw [hphase]
        apply hmem
      · apply hmem
  | access =>
    obtain ⟨c, hc, rfl⟩ := Option.map_eq_some_iff.mp hstep
    rcases step_cases obj hc with ⟨_, ⟨⟩, -⟩ | ⟨_, _, ⟨⟩, -⟩ |
      ⟨op, p, q, s, -, hphase, hnext, rfl⟩ | ⟨_, _, _, ⟨⟩, -⟩
    use y, rfl
    constructor
    case reached => apply h.reached.access hphase hnext
    case thread => apply h.thread
    case wants =>
      intro u op' hop'
      apply h.wants u op'
      rcases x.config.move_pending hop' with ⟨rfl, hmem⟩ | ⟨-, hmem⟩
      · rw [hphase]
        apply hmem
      · apply hmem
  | leave =>
    rw [lockedStep] at hstep
    split at hstep
    · rename_i op a hinside
      obtain ⟨c, hc, rfl⟩ := Option.map_eq_some_iff.mp hstep
      rcases step_cases obj hc with ⟨_, ⟨⟩, -⟩ | ⟨_, _, ⟨⟩, -⟩ | ⟨_, _, _, _, ⟨⟩, -⟩ |
        ⟨op', a', l, -, hphase, hl, rfl⟩
      obtain ⟨rfl, heq⟩ := Phase.inside.inj (hinside.symm.trans hphase)
      obtain rfl := Prog.done.inj heq
      have hwants : (y.thread t).wants = some op := by
        rw [← h.thread]
        apply h.wants t op
        rw [hphase]
        exact List.mem_singleton_self op
      have hserve : obj.serve y.state op = some (a, x.config.state) :=
        (h.reached.resume t op _ hphase).symm
      refine ⟨⟨x.config.state, Function.update y.thread t ((y.thread t).answer a)⟩, ?_, ?_⟩
      · simp only [LockTurn.turns, run, sharedStep, hwants, hserve, Option.bind_eq_bind,
          Option.bind_some]
      · constructor
        case reached => apply h.reached.leave hphase hl
        case thread =>
          dsimp only
          rw [h.thread]
        case wants =>
          intro u op' hop'
          rcases x.config.move_pending hop' with ⟨rfl, hmem⟩ | ⟨hne, hmem⟩
          · cases hmem
          · dsimp only
            rw [Function.update_of_ne hne]
            apply h.wants u op' hmem
    · cases hstep
  | own m =>
    rw [lockedStep] at hstep
    split at hstep
    · rename_i hphase
      obtain ⟨z, hz, rfl⟩ := Option.map_eq_some_iff.mp hstep
      refine ⟨{ y with thread := Function.update y.thread t z }, ?_, ?_⟩
      · rw [h.thread] at hz
        simp only [LockTurn.turns, run, sharedStep, hz, Option.bind_eq_bind, Option.bind_some]
      · constructor
        case reached => apply h.reached
        case thread =>
          dsimp only
          rw [h.thread]
        case wants =>
          intro u op' hop'
          rcases eq_or_ne u t with rfl | hne
          · rw [hphase] at hop'
            cases hop'
          · dsimp only
            rw [Function.update_of_ne hne]
            apply h.wants u op' hop'
    · cases hstep

/-- In every interleaving under the lock the threads call, are answered and note what they do when
each operation happens at once, in the order in which the calls give the lock back. -/
theorem exists_shared {clients : ι → Client Op A I E R} {es : List (ι × LockTurn I)}
    (hrun : run (lockedStep obj) (.start s₀ clients) es = some x) :
  ∃ y, run (sharedStep obj.serve) (.start s₀ clients) (es.flatMap fun e => e.2.turns e.1) = some y ∧
    Tracks obj s₀ x y
  := by
  apply run_induct (P := fun es x => ∃ y, run (sharedStep obj.serve) (.start s₀ clients)
    (es.flatMap fun e => e.2.turns e.1) = some y ∧ Tracks obj s₀ x y) hrun
  · exact ⟨_, rfl, .start s₀ clients⟩
  · rintro es x ⟨t, e⟩ x' ⟨y, hy, h⟩ hstep
    obtain ⟨y', hy', h'⟩ := h.step hstep
    use y'
    constructor
    · rw [List.flatMap_append, run_append, hy]
      simpa using hy'
    · apply h'

/-- The thread calls its operation. -/
def LockTurn.isCall : LockTurn I → Bool
  | .call => true
  | _ => false

/-- The thread's operation happens. -/
def Turn.isCall : Turn I → Bool
  | .call => true
  | .own _ => false

/-- The threads under the lock take actions of the object, and as many operations have happened as
calls were answered. -/
theorem exists_actions {clients : ι → Client Op A I E R} {es : List (ι × LockTurn I)}
    (hrun : run (lockedStep obj) (.start s₀ clients) es = some x) :
  (∃ acts, run (RwLock.step obj) (RwLock.start s₀) acts = some x.config ∧
      (calls (acts.map Prod.snd)).length = es.countP fun e => e.2.isCall) ∧
    (es.flatMap fun e => e.2.turns e.1).countP (fun e => e.2.isCall) = x.config.log.length
  := by
  apply run_induct (P := fun es x => (∃ acts, run (RwLock.step obj) (RwLock.start s₀) acts
      = some x.config ∧ (calls (acts.map Prod.snd)).length = es.countP fun e => e.2.isCall) ∧
    (es.flatMap fun e => e.2.turns e.1).countP (fun e => e.2.isCall) = x.config.log.length) hrun
  · exact ⟨⟨[], rfl, rfl⟩, rfl⟩
  · rintro es x ⟨t, e⟩ x' ⟨⟨acts, hacts, hcalls⟩, hlog⟩ hstep
    have hact : ∀ (a : Action Op) (c : Config S Op A ι), RwLock.step obj x.config (t, a) = some c →
        run (RwLock.step obj) (RwLock.start s₀) (acts ++ [(t, a)]) = some c := by
      intro a c hc
      rw [run_append, hacts, Option.bind_some, run, hc]
      rfl
    have hadd : ∀ a : Action Op, (calls ((acts ++ [(t, a)]).map Prod.snd)).length
        = (es.countP fun e => e.2.isCall) + ([a].filterMap Action.called).length := by
      intro a
      rw [List.map_append, calls, List.filterMap_append, List.length_append, ← hcalls]
      rfl
    have hturns : ((es ++ [(t, e)]).flatMap fun e => e.2.turns e.1).countP (fun e => e.2.isCall)
        = x.config.log.length + (e.turns t).countP fun e => e.2.isCall := by
      rw [List.flatMap_append, List.countP_append, hlog, List.flatMap_singleton]
    rw [List.countP_append]
    cases e with
    | call =>
      obtain ⟨op, -, hstep⟩ := Option.bind_eq_some_iff.mp hstep
      obtain ⟨c, hc, rfl⟩ := Option.map_eq_some_iff.mp hstep
      rcases step_cases obj hc with ⟨op', -, -, rfl⟩ | ⟨_, _, ⟨⟩, -⟩ | ⟨_, _, _, _, ⟨⟩, -⟩ |
        ⟨_, _, _, ⟨⟩, -⟩
      constructor
      · use acts ++ [(t, .call op)], hact _ _ hc
        rw [hadd]
        rfl
      · rw [hturns]
        rfl
    | enter =>
      obtain ⟨c, hc, rfl⟩ := Option.map_eq_some_iff.mp hstep
      rcases step_cases obj hc with ⟨_, ⟨⟩, -⟩ | ⟨op, l, -, -, -, rfl⟩ | ⟨_, _, _, _, ⟨⟩, -⟩ |
        ⟨_, _, _, ⟨⟩, -⟩
      constructor
      · use acts ++ [(t, .enter)], hact _ _ hc
        rw [hadd]
        rfl
      · rw [hturns]
        rfl
    | access =>
      obtain ⟨c, hc, rfl⟩ := Option.map_eq_some_iff.mp hstep
      rcases step_cases obj hc with ⟨_, ⟨⟩, -⟩ | ⟨_, _, ⟨⟩, -⟩ | ⟨op, p, q, s, -, -, -, rfl⟩ |
        ⟨_, _, _, ⟨⟩, -⟩
      constructor
      · use acts ++ [(t, .access)], hact _ _ hc
        rw [hadd]
        rfl
      · rw [hturns]
        rfl
    | leave =>
      rw [lockedStep] at hstep
      split at hstep
      · obtain ⟨c, hc, rfl⟩ := Option.map_eq_some_iff.mp hstep
        rcases step_cases obj hc with ⟨_, ⟨⟩, -⟩ | ⟨_, _, ⟨⟩, -⟩ | ⟨_, _, _, _, ⟨⟩, -⟩ |
          ⟨op, a, l, -, -, -, rfl⟩
        constructor
        · use acts ++ [(t, .leave)], hact _ _ hc
          rw [hadd]
          rfl
        · rw [hturns, List.length_append]
          rfl
      · cases hstep
    | own m =>
      rw [lockedStep] at hstep
      split at hstep
      · obtain ⟨z, -, rfl⟩ := Option.map_eq_some_iff.mp hstep
        constructor
        · use acts, hacts
          rw [hcalls]
          rfl
        · rw [hturns]
          rfl
      · cases hstep

/-! ## Progress -/

/-- A thread has a turn to take, whatever its next input is. -/
def Locked.GoesOn (obj : Object S Op A) (x : Locked S Op A I E R ι) (t : ι) : Prop :=
  (∃ e : LockTurn I, (∀ i, e ≠ .own (.input i)) ∧ (lockedStep obj x (t, e)).isSome) ∨
    ∀ i, (lockedStep obj x (t, .own (.input i))).isSome

/-- While no operation that a thread wants fails, some thread can go on until all clients have
ended. -/
theorem Tracks.progress (h : Tracks obj s₀ x y)
    (hsafe : ∀ t op, (y.thread t).wants = some op → (obj.serve y.state op).isSome) {t : ι}
    (ht : (x.thread t).left.ended = false) :
  ∃ u, x.GoesOn obj u
  := by
  by_cases hphase : x.config.phase t = .idle
  · use t
    rcases (x.thread t).cases with hend | ⟨op, hop⟩ | hnote | hinput
    · rw [ht] at hend
      cases hend
    · left
      use .call
      simp [lockedStep, hop, RwLock.step, hphase]
    · left
      use .own .note
      simp [lockedStep, hphase, hnote]
    · right
      intro i
      simp [lockedStep, hphase, hinput i]
  · have haccess : ∀ u op p, x.config.phase u = .inside op p →
        (∃ a, p = .done a) ∨ (p.next x.config.state).isSome := by
      intro u op p hinside
      apply Prog.next_of_run
      rw [h.reached.resume u op p hinside]
      apply hsafe u op
      rw [← h.thread]
      apply h.wants u op
      rw [hinside]
      exact List.mem_singleton_self op
    obtain ⟨u, e, hcalled, hnext⟩ := h.reached.exists_next haccess hphase
    use u
    left
    cases e with
    | call op => cases hcalled
    | enter =>
      use .enter
      simp [lockedStep, hnext]
    | access =>
      use .access
      simp [lockedStep, hnext]
    | leave =>
      use .leave
      obtain ⟨c, hc⟩ := Option.isSome_iff_exists.mp hnext
      rcases step_cases obj hc with ⟨_, ⟨⟩, -⟩ | ⟨_, _, ⟨⟩, -⟩ | ⟨_, _, _, _, ⟨⟩, -⟩ |
        ⟨op, a, l, -, hinside, -⟩
      simp [lockedStep, hinside, hc]

/-! ## Runs of threads whose operations happen at once -/

variable {serve : S → Op → Option (A × S)}

/-- What a turn does. -/
theorem sharedStep_cases {y y' : Shared S Op A I E R ι} {t : ι} {turn : Turn I}
    (h : sharedStep serve y (t, turn) = some y') :
  (∀ u ≠ t, y'.thread u = y.thread u) ∧
    ((∃ op a next, turn = .call ∧ (y.thread t).left = .call op next ∧
        serve y.state op = some (a, y'.state) ∧
        y'.thread t = ⟨next a, (y.thread t).calls ++ [(op, a)], (y.thread t).notes⟩) ∨
      (∃ i next, turn = .own (.input i) ∧ (y.thread t).left = .input next ∧
        y'.state = y.state ∧ y'.thread t = ⟨next i, (y.thread t).calls, (y.thread t).notes⟩) ∨
      ∃ e next, turn = .own .note ∧ (y.thread t).left = .note e next ∧ y'.state = y.state ∧
        y'.thread t = ⟨next, (y.thread t).calls, (y.thread t).notes ++ [e]⟩)
  := by
  cases turn with
  | call =>
    obtain ⟨op, hop, h⟩ := Option.bind_eq_some_iff.mp h
    obtain ⟨⟨a, s⟩, hserve, h⟩ := Option.bind_eq_some_iff.mp h
    obtain rfl := Option.some.inj h
    obtain ⟨next, hnext, hanswer⟩ := Thread.wants_eq hop
    use fun u hne => Function.update_of_ne hne ..
    left
    exact ⟨op, a, next, rfl, hnext, hserve, (Function.update_self ..).trans (hanswer a)⟩
  | own m =>
    obtain ⟨z, hz, h⟩ := Option.bind_eq_some_iff.mp h
    obtain rfl := Option.some.inj h
    use fun u hne => Function.update_of_ne hne ..
    right
    cases m with
    | note =>
      right
      rw [Thread.own] at hz
      split at hz
      · rename_i e next hleft
        obtain rfl := Option.some.inj hz
        exact ⟨e, next, rfl, hleft, rfl, Function.update_self ..⟩
      · cases hz
    | input i =>
      left
      rw [Thread.own] at hz
      split at hz
      · rename_i next hleft
        obtain rfl := Option.some.inj hz
        exact ⟨i, next, rfl, hleft, rfl, Function.update_self ..⟩
      · cases hz

/-- The calls lead from a state to another, with their answers. -/
def Served (serve : S → Op → Option (A × S)) : S → List (Op × A) → S → Prop
  | s, [], s' => s = s'
  | s, (op, a) :: calls, s' => ∃ t, serve s op = some (a, t) ∧ Served serve t calls s'

omit [DecidableEq ι] in
/-- Calls after others. -/
theorem Served.append {s t u : S} {calls calls' : List (Op × A)} (h : Served serve s calls t)
    (h' : Served serve t calls' u) :
  Served serve s (calls ++ calls') u
  := by
  induction calls generalizing s with
  | nil =>
    obtain rfl : s = t := h
    apply h'
  | cons x calls ih =>
    obtain ⟨v, hv, hrest⟩ := h
    exact ⟨v, hv, ih hrest⟩

/-- The calls of the threads are one sequence of calls. -/
theorem exists_log {y y' : Shared S Op A I E R ι} {es : List (ι × Turn I)}
    (hrun : run (sharedStep serve) y es = some y') :
  ∃ log : List (ι × (Op × A)), Served serve y.state (log.map Prod.snd) y'.state ∧
    ∀ t, (y'.thread t).calls = (y.thread t).calls ++ own t log
  := by
  apply run_induct (P := fun _ y' => ∃ log : List (ι × (Op × A)),
    Served serve y.state (log.map Prod.snd) y'.state ∧
      ∀ t, (y'.thread t).calls = (y.thread t).calls ++ own t log) hrun
  · exact ⟨[], rfl, fun t => (List.append_nil _).symm⟩
  · rintro es x ⟨t, turn⟩ x' ⟨log, hserved, hcalls⟩ hstep
    obtain ⟨hframe, ⟨op, a, next, -, -, hserve, ht⟩ | hown⟩ := sharedStep_cases hstep
    · use log ++ [(t, (op, a))]
      constructor
      · rw [List.map_append]
        exact hserved.append ⟨x'.state, hserve, rfl⟩
      · intro u
        rw [own_append]
        rcases eq_or_ne u t with rfl | hne
        · rw [own_cons_self, ht, hcalls, List.append_assoc]
          rfl
        · rw [own_cons_of_ne hne.symm, hframe u hne, hcalls]
          exact congrArg _ (List.append_nil _).symm
    · have hsame : x'.state = x.state ∧ (x'.thread t).calls = (x.thread t).calls := by
        rcases hown with ⟨i, next, -, -, hstate, ht⟩ | ⟨e, next, -, -, hstate, ht⟩
        · exact ⟨hstate, by rw [ht]⟩
        · exact ⟨hstate, by rw [ht]⟩
      use log
      constructor
      · rw [hsame.1]
        apply hserved
      · intro u
        rcases eq_or_ne u t with rfl | hne
        · rw [hsame.2, hcalls]
        · rw [hframe u hne, hcalls]

/-! ## What clients ensure -/

/-- While the others keep `K`, a client that has made some calls and taken some notes keeps `K` with
each of its calls.  Its notes satisfy `T` at each moment, and its calls, its notes and its result
satisfy `Q` at the end. -/
inductive Client.Ensures (serve : S → Op → Option (A × S)) (K : S → Prop) (T : List E → Prop)
    (Q : List (Op × A) → List E → R → Prop) :
    Client Op A I E R → List (Op × A) → List E → Prop
  | done {r : R} {calls : List (Op × A)} {notes : List E} :
    T notes → Q calls notes r → Ensures serve K T Q (.done r) calls notes
  | call {op : Op} {next : A → Client Op A I E R} {calls : List (Op × A)} {notes : List E} :
    T notes → (∀ s a s', K s → serve s op = some (a, s') → K s') →
      (∀ s a s', K s → serve s op = some (a, s') →
        Ensures serve K T Q (next a) (calls ++ [(op, a)]) notes) →
      Ensures serve K T Q (.call op next) calls notes
  | input {next : I → Client Op A I E R} {calls : List (Op × A)} {notes : List E} :
    T notes → (∀ i, Ensures serve K T Q (next i) calls notes) →
      Ensures serve K T Q (.input next) calls notes
  | note {e : E} {next : Client Op A I E R} {calls : List (Op × A)} {notes : List E} :
    T notes → Ensures serve K T Q next calls (notes ++ [e]) →
      Ensures serve K T Q (.note e next) calls notes

section Ensures

variable {R' : Type} {K : S → Prop} {T : List E → Prop} {calls : List (Op × A)} {notes : List E}

namespace Client.Ensures

omit [DecidableEq ι]

/-- A client after another. -/
theorem bind {Q : List (Op × A) → List E → R' → Prop} {p : Client Op A I E R}
    {q : R → Client Op A I E R'}
    (h : p.Ensures serve K T (fun calls notes r => (q r).Ensures serve K T Q calls notes) calls
      notes) :
  (p >>= q).Ensures serve K T Q calls notes
  := by
  change (p.bind q).Ensures serve K T Q calls notes
  induction h with
  | done hT hQ => exact hQ
  | call hT hK hnext ih => exact .call hT hK ih
  | input hT hnext ih => exact .input hT ih
  | note hT hnext ih => exact .note hT ih

/-- Calls that each keep `K`. -/
theorem askAll {P : Op → A → Prop} {Q : List (Op × A) → List E → List A → Prop} {ops : List Op}
    (hT : T notes) (hops : ∀ op ∈ ops, ∀ s a s', K s → serve s op = some (a, s') → K s' ∧ P op a)
    (hQ : ∀ as, List.Forall₂ P ops as → Q (calls ++ ops.zip as) notes as) :
  (askAll (I := I) ops).Ensures serve K T Q calls notes
  := by
  induction ops generalizing calls Q with
  | nil =>
    apply done hT
    simpa using hQ [] .nil
  | cons op ops ih =>
    have hop := hops op List.mem_cons_self
    apply bind
    apply call hT (fun s a s' hs hserve => (hop s a s' hs hserve).1)
    intro s a s' hs hserve
    apply done hT
    apply bind
    apply ih (fun op' hop' => hops op' (List.mem_cons_of_mem _ hop'))
    intro as has
    apply done hT
    simpa using hQ (a :: as) (.cons (hop s a s' hs hserve).2 has)

/-- Notes one after the other. -/
theorem tell {Q : List (Op × A) → List E → Unit → Prop} {es : List E}
    (hT : ∀ es', es' <+: es → T (notes ++ es')) (hQ : Q calls (notes ++ es) ()) :
  (tell (I := I) es).Ensures serve K T Q calls notes
  := by
  have hnow := hT [] List.nil_prefix
  rw [List.append_nil] at hnow
  induction es generalizing notes with
  | nil =>
    rw [List.append_nil] at hQ
    exact done hnow hQ
  | cons e es ih =>
    have hcons : ∀ es', notes ++ [e] ++ es' = notes ++ e :: es' := fun es' => by simp
    apply note hnow
    apply ih
    · intro es' hes'
      rw [hcons]
      exact hT (e :: es') ((List.prefix_cons_inj e).mpr hes')
    · rw [hcons]
      exact hQ
    · exact hT [e] ((List.prefix_cons_inj e).mpr List.nil_prefix)

/-- What a client ensures at each moment and at the end. -/
theorem now {Q : List (Op × A) → List E → R → Prop} {p : Client Op A I E R}
    (h : p.Ensures serve K T Q calls notes) :
  T notes ∧ ∀ r, p = .done r → Q calls notes r
  := by
  cases h with
  | done hT hQ =>
    use hT
    rintro r ⟨⟩
    exact hQ
  | call hT hK hnext => exact ⟨hT, nofun⟩
  | input hT hnext => exact ⟨hT, nofun⟩
  | note hT hnext => exact ⟨hT, nofun⟩

end Client.Ensures

/-- What each thread ensures holds at each moment of every run. -/
theorem run_ensures {T : ι → List E → Prop} {Q : ι → List (Op × A) → List E → R → Prop}
    {y y' : Shared S Op A I E R ι} {es : List (ι × Turn I)}
    (hrun : run (sharedStep serve) y es = some y') (hK : K y.state)
    (h : ∀ t, (y.thread t).left.Ensures serve K (T t) (Q t) (y.thread t).calls
      (y.thread t).notes) :
  K y'.state ∧ ∀ t, (y'.thread t).left.Ensures serve K (T t) (Q t) (y'.thread t).calls
    (y'.thread t).notes
  := by
  refine run_induct (P := fun _ y => K y.state ∧ ∀ t, (y.thread t).left.Ensures serve K (T t) (Q t)
    (y.thread t).calls (y.thread t).notes) hrun ⟨hK, h⟩ ?_
  rintro _ x ⟨t, turn⟩ x' ⟨hx, hall⟩ hstep
  obtain ⟨hframe, hcase⟩ := sharedStep_cases hstep
  have hx' : K x'.state ∧ (x'.thread t).left.Ensures serve K (T t) (Q t) (x'.thread t).calls
      (x'.thread t).notes := by
    have ht := hall t
    rcases hcase with ⟨op, a, next, -, hleft, hserve, hthread⟩ |
      ⟨i, next, -, hleft, hstate, hthread⟩ | ⟨e, next, -, hleft, hstate, hthread⟩
    · rw [hleft] at ht
      cases ht with
      | call hT hkeep hnext =>
        rw [hthread]
        exact ⟨hkeep _ _ _ hx hserve, hnext _ _ _ hx hserve⟩
    · rw [hleft] at ht
      cases ht with
      | input hT hnext =>
        rw [hthread, hstate]
        exact ⟨hx, hnext i⟩
    · rw [hleft] at ht
      cases ht with
      | note hT hnext =>
        rw [hthread, hstate]
        exact ⟨hx, hnext⟩
  use hx'.1
  intro u
  rcases eq_or_ne u t with rfl | hne
  · apply hx'.2
  · rw [hframe u hne]
    apply hall u

end Ensures

end Threads

end RwLock
