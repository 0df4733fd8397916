import Keybench.Lib.Polling
import Keybench.Run.Workers

/-!
# The samples of a phase

While the workers of a phase run, a thread of its own adds up their counters at each tick and
reports what has been done since the tick before.  It reads the counters of the workers one after
another, and the workers go on between two reads.  `phaseStep` is an event of a timed phase, of a
worker or of its sampler, and `seedStep` is one of the seeding of a store.

In every interleaving the intervals of the samples cover the progress of the workers once, up to
what the last tick has read, and so do the intervals of the samples and those of the lines that are
printed while a store is seeded (`progress_spec`).
-/

namespace Keybench

/-! ## The sampler of a timed phase -/

/-- The rates of a `report_sample` of the phase `run`, by what they are computed from. -/
structure RunSample where
  /-- `prev_ops`. -/
  prevOps : UInt64
  /-- `cur_ops`. -/
  curOps : UInt64
  /-- `prev_units`. -/
  prevUnits : ℤ
  /-- `cur_units`. -/
  curUnits : ℤ
  /-- `dt`. -/
  dt : ℚ

/-- `cur_ops - prev_ops`. -/
def RunSample.opsDelta (s : RunSample) : UInt64 := s.curOps - s.prevOps

/-- `cur_units - prev_units`. -/
def RunSample.unitsDelta (s : RunSample) : ℤ := s.curUnits - s.prevUnits

/-- `wu_per_s`. -/
def RunSample.wuPerS (s : RunSample) : ℚ := if s.dt > 0 then s.unitsDelta / s.dt else 0

/-- `ops_per_s`. -/
def RunSample.opsPerS (s : RunSample) : ℚ := if s.dt > 0 then s.opsDelta.toNat / s.dt else 0

/-- Where the sampler is. -/
inductive SamplerPhase where
  /-- It waits for the next tick. -/
  | waiting
  /-- It is going to read `prim_ops` of the worker `t`, if there is one. -/
  | readOps (dt : ℚ) (t : ℕ) (curOps : UInt64) (curUnits : ℤ)
  /-- It is going to read `units` of the worker `t`. -/
  | readUnits (dt : ℚ) (t : ℕ) (curOps : UInt64) (curUnits : ℤ)
  /-- It has ended. -/
  | ended

/-- `sampler`, with the variables of `sampler_main` and the samples so far. -/
structure Sampler where
  /-- `prev_ops`. -/
  prevOps : UInt64
  /-- `prev_units`. -/
  prevUnits : ℤ
  /-- `last`. -/
  last : UInt64
  /-- Where the sampler is. -/
  phase : SamplerPhase
  /-- The samples. -/
  samples : List RunSample

/-- What happens to the sampler. -/
inductive SamplerEvent where
  /-- The clock has said `seen` when the wait ends, and it says `now` after that. -/
  | wake (seen now : UInt64)
  /-- A counter is read. -/
  | read
  /-- The sample is reported. -/
  | report
  /-- `stop` is set. -/
  | stop

/-- Nanoseconds in seconds. -/
def inSeconds (ns : UInt64) : ℚ := ns.toNat / 10 ^ 9

section Steps

variable (toUInt64 : Binary64 → UInt64) (cfg : RunConfig) {n : ℕ}

/-- The sampler before it starts, at `t0`. -/
def samplerStart (t0 : UInt64) : Sampler where
  prevOps := 0
  prevUnits := 0
  last := t0
  phase := .waiting
  samples := []

/-- `sampler_main`, event by event, beside the workers `ws`. -/
def samplerStep (ws : Fin n → TimedWorker) (sp : Sampler) (e : SamplerEvent) : Option Sampler :=
  match sp.phase, e with
  | .waiting, .wake seen now =>
    if seen < sp.last + toUInt64 (cfg.timeline.scale (10 ^ 9)) then none
    else some { sp with last := now, phase := .readOps (inSeconds (now - sp.last)) 0 0 0 }
  | .waiting, .stop => some { sp with phase := .ended }
  | .readOps dt t curOps curUnits, .read =>
    if h : t < n then
      some { sp with
        phase := .readUnits dt t (curOps + UInt64.ofNat (ws ⟨t, h⟩).stats.primOps) curUnits }
    else none
  | .readUnits dt t curOps curUnits, .read =>
    if h : t < n then
      some { sp with phase := .readOps dt (t + 1) curOps (curUnits + (ws ⟨t, h⟩).units) }
    else none
  | .readOps dt t curOps curUnits, .report =>
    if t < n then none
    else some { sp with
      prevOps := curOps
      prevUnits := curUnits
      phase := .waiting
      samples := sp.samples ++
        [{ prevOps := sp.prevOps, curOps, prevUnits := sp.prevUnits, curUnits, dt }] }
  | _, _ => none

/-- The workers of a timed phase and its sampler. -/
structure TimedPhase (n : ℕ) where
  /-- `ws`. -/
  ws : Fin n → TimedWorker
  /-- `sp`. -/
  sp : Sampler

/-- What happens in a timed phase. -/
inductive PhaseEvent (n : ℕ) where
  /-- Something happens to the worker `t`. -/
  | worker (t : Fin n) (e : WorkerEvent)
  /-- Something happens to the sampler. -/
  | sampler (e : SamplerEvent)

/-- A timed phase, event by event. -/
def phaseStep (p : TimedPhase n) : PhaseEvent n → Option (TimedPhase n)
  | .worker t e =>
    (Interleave.stepAt (workerStep toUInt64 cfg) p.ws (t, e)).map fun ws => { p with ws }
  | .sampler e => (samplerStep toUInt64 cfg p.ws p.sp e).map fun sp => { p with sp }

/-- A timed phase after some events. -/
def sampledRun (threads : Int32) (t0 : UInt64) (es : List (PhaseEvent (nthreads threads))) :
    Option (TimedPhase (nthreads threads)) :=
  Interleave.run (phaseStep toUInt64 cfg)
    { ws := timedWorkers cfg (nthreads threads), sp := samplerStart t0 } es

end Steps

/-! ## Rising counters -/

/-- Recording does not lower the primitive operations. -/
theorem primOps_statsRecord_le (s : OpStats) (e : StatsEvent) :
  s.primOps ≤ (statsRecord s e).primOps
  := by
  cases e with
  | prim n => apply Nat.le_add_right
  | _ => apply le_refl

section Rising

variable {toUInt64 : Binary64 → UInt64} {cfg : RunConfig}

/-- A step of a worker does not lower its primitive operations. -/
theorem workerStep_primOps_le {w w' : TimedWorker} {e : WorkerEvent}
    (hstep : workerStep toUInt64 cfg w e = some w') :
  w.stats.primOps ≤ w'.stats.primOps
  := by
  cases workerStep_move hstep with
  | verb e h => apply primOps_statsRecord_le
  | _ => apply le_refl

/-- A step of a worker does not lower its units. -/
theorem workerStep_units_le {ops : ℤ} {es : List WorkerEvent} {w w' : TimedWorker}
    {e : WorkerEvent} (hinv : WorkerInv cfg ops es w)
    (hstep : workerStep toUInt64 cfg w e = some w') :
  w.units ≤ w'.units
  := by
  rw [hinv.units, (hinv.step hstep).units, List.countP_append]
  apply Nat.le_add_right

end Rising

/-! ## The samples of a timed phase -/

/-- How many counters of primitive operations the sampler has read at a tick, and their sum. -/
@[simp]
def SamplerPhase.opsTurn : SamplerPhase → ℕ × UInt64
  | .readOps _ t curOps _ => (t, curOps)
  | .readUnits _ t curOps _ => (t + 1, curOps)
  | _ => (0, 0)

/-- How many counters of units the sampler has read at a tick, and their sum. -/
@[simp]
def SamplerPhase.unitsTurn : SamplerPhase → ℕ × ℤ
  | .readOps _ t _ curUnits => (t, curUnits)
  | .readUnits _ t _ curUnits => (t, curUnits)
  | _ => (0, 0)

/-- The sampler keeps track of the workers. -/
structure SamplerInv {n : ℕ} (ws : Fin n → TimedWorker) (sp : Sampler) : Prop where
  ops : Polling.Tracked UInt64.ofNat (fun t => (ws t).stats.primOps)
    (sp.samples.map fun s => (s.prevOps, s.curOps)) sp.prevOps sp.phase.opsTurn.1 sp.phase.opsTurn.2
  units : Polling.Tracked (Nat.cast : ℕ → ℤ) (fun t => (ws t).units)
    (sp.samples.map fun s => (s.prevUnits, s.curUnits)) sp.prevUnits sp.phase.unitsTurn.1
    sp.phase.unitsTurn.2

section Phase

variable {toUInt64 : Binary64 → UInt64} {cfg : RunConfig} {n : ℕ}

/-- Before the first tick. -/
theorem SamplerInv.start (ws : Fin n → TimedWorker) (t0 : UInt64) :
  SamplerInv ws (samplerStart t0)
  := by
  constructor
  case ops => apply Polling.Tracked.start
  case units => apply Polling.Tracked.start

/-- Counters of the workers are raised. -/
theorem SamplerInv.raise {ws ws' : Fin n → TimedWorker} {sp : Sampler} (h : SamplerInv ws sp)
    (hops : ∀ t, (ws t).stats.primOps ≤ (ws' t).stats.primOps)
    (hunits : ∀ t, (ws t).units ≤ (ws' t).units) :
  SamplerInv ws' sp
  := by
  constructor
  case ops => apply h.ops.raise hops
  case units => apply h.units.raise hunits

/-- A step of the sampler keeps track of the workers. -/
theorem SamplerInv.step {ws : Fin n → TimedWorker} {sp sp' : Sampler} {e : SamplerEvent}
    (h : SamplerInv ws sp) (hstep : samplerStep toUInt64 cfg ws sp e = some sp') :
  SamplerInv ws sp'
  := by
  obtain ⟨prevOps, prevUnits, last, phase, samples⟩ := sp
  obtain ⟨hops, hunits⟩ := h
  cases phase <;> cases e <;> simp only [samplerStep, reduceCtorEq, Option.some.injEq,
    Option.ite_none_left_eq_some, Option.dite_none_right_eq_some] at hstep
  case waiting.wake seen now =>
    obtain ⟨-, rfl⟩ := hstep
    exact ⟨hops, hunits⟩
  case waiting.stop =>
    subst hstep
    exact ⟨hops, hunits⟩
  case readOps.read dt t curOps curUnits =>
    obtain ⟨ht, rfl⟩ := hstep
    exact ⟨hops.read (fun _ _ => UInt64.ofNat_add _ _) ht, hunits⟩
  case readUnits.read dt t curOps curUnits =>
    obtain ⟨ht, rfl⟩ := hstep
    exact ⟨hops, hunits.read Nat.cast_add ht⟩
  case readOps.report dt t curOps curUnits =>
    obtain ⟨ht, rfl⟩ := hstep
    have htold := hops.tell (not_lt.mp ht)
    have htold' := hunits.tell (not_lt.mp ht)
    constructor
    case ops => simpa using htold
    case units => simpa using htold'

/-- What holds in a timed phase. -/
structure PhaseInv (cfg : RunConfig) (p : TimedPhase n) : Prop where
  workers : ∀ t, ∃ ops es, WorkerInv cfg ops es (p.ws t)
  sampler : SamplerInv p.ws p.sp

/-- An event of a timed phase keeps what holds in it. -/
theorem PhaseInv.step {p p' : TimedPhase n} {e : PhaseEvent n} (h : PhaseInv cfg p)
    (hstep : phaseStep toUInt64 cfg p e = some p') :
  PhaseInv cfg p'
  := by
  cases e with
  | worker t e =>
    obtain ⟨ws, hws, rfl⟩ := Option.map_eq_some_iff.mp hstep
    obtain ⟨w, hw, rfl⟩ := Option.map_eq_some_iff.mp hws
    obtain ⟨ops, es, hinv⟩ := h.workers t
    constructor
    case workers =>
      intro u
      rcases eq_or_ne u t with rfl | hne
      · use ops, es ++ [e]
        simpa using hinv.step hw
      · simpa [hne] using h.workers u
    case sampler =>
      apply h.sampler.raise
      · intro u
        rcases eq_or_ne u t with rfl | hne
        · simpa using workerStep_primOps_le hw
        · simp [hne]
      · intro u
        rcases eq_or_ne u t with rfl | hne
        · simpa using workerStep_units_le hinv hw
        · simp [hne]
  | sampler e =>
    obtain ⟨sp, hsp, rfl⟩ := Option.map_eq_some_iff.mp hstep
    exact ⟨h.workers, h.sampler.step hsp⟩

/-- What holds in every timed phase, in every interleaving. -/
theorem phaseInv_sampledRun {threads : Int32} {t0 : UInt64}
    {es : List (PhaseEvent (nthreads threads))} {p : TimedPhase (nthreads threads)}
    (hrun : sampledRun toUInt64 cfg threads t0 es = some p) :
  PhaseInv cfg p
  := by
  apply Interleave.run_induct (P := fun _ p => PhaseInv cfg p) hrun
  · constructor
    case workers =>
      intro t
      exact ⟨_, [], WorkerInv.start rfl rfl rfl⟩
    case sampler => apply SamplerInv.start
  · intro _ p e p' hinv hstep
    apply hinv.step hstep

/-- No rate of a sample is negative. -/
theorem samples_nonneg {threads : Int32} {t0 : UInt64} {es : List (PhaseEvent (nthreads threads))}
    {p : TimedPhase (nthreads threads)} (hrun : sampledRun toUInt64 cfg threads t0 es = some p)
    {x : RunSample} (hx : x ∈ p.sp.samples) :
  0 ≤ x.wuPerS ∧ 0 ≤ x.opsPerS
  := by
  have hsampler := (phaseInv_sampledRun hrun).sampler
  have hdelta : 0 ≤ x.unitsDelta := hsampler.units.exact.1 _ (List.mem_map_of_mem hx)
  constructor
  · rw [RunSample.wuPerS]
    split_ifs with hdt
    · apply div_nonneg (Int.cast_nonneg hdelta) hdt.le
    · rfl
  · rw [RunSample.opsPerS]
    split_ifs with hdt
    · apply div_nonneg (Nat.cast_nonneg _) hdt.le
    · rfl

/-- The primitive operations of a phase are those of its workers. -/
theorem measureTimed_primOps (engine : Option Bytes) (wall : ℚ) (ws : Fin n → TimedWorker) :
  (measureTimed engine wall (List.ofFn ws)).stats.primOps = ∑ t, (ws t).stats.primOps
  := by
  have hfold : ∀ (ss : List OpStats) (s : OpStats),
      (ss.foldl statsMerge s).primOps = s.primOps + (ss.map OpStats.primOps).sum := by
    intro ss
    induction ss with
    | nil =>
      intro s
      rfl
    | cons x ss ih =>
      intro s
      rw [List.foldl_cons, ih, List.map_cons, List.sum_cons, ← Nat.add_assoc]
      rfl
  rw [measureTimed, measureStats, hfold, List.map_ofFn, List.map_ofFn, List.sum_ofFn]
  apply Nat.zero_add

end Phase

/-! ## The progress of a seeding -/

/-- `load_worker`, the fields that change. -/
structure LoadWorker where
  /-- `kc.stats`. -/
  stats : OpStats
  /-- `err`. -/
  err : Bool
  /-- Whether the worker has ended. -/
  ended : Bool

/-- What happens to a worker that seeds a store. -/
inductive LoadEvent where
  /-- A verb records an event. -/
  | verb (e : StatsEvent)
  /-- `open_workload` or `load` fails. -/
  | failed
  /-- `load` comes back, or the workload has none. -/
  | done

/-- `load_worker_main`, event by event. -/
def loadStep (w : LoadWorker) (e : LoadEvent) : Option LoadWorker :=
  match w.ended, e with
  | false, .verb e => some { w with stats := statsRecord w.stats e }
  | false, .failed => some { w with err := true, ended := true }
  | false, .done => some { w with ended := true }
  | true, _ => none

/-- The workers that seed a store, before they start. -/
def loadWorkers (n : ℕ) (_ : Fin n) : LoadWorker where
  stats := statsReset
  err := false
  ended := false

/-- The rate of a `report_sample` of the phase `seed` or of a line, by what it is computed from. -/
structure SeedInterval where
  /-- `prev_keys`, `print_keys`. -/
  prev : UInt64
  /-- `keys`. -/
  keys : UInt64
  /-- `dt`, `pdt`. -/
  dt : ℚ

/-- `rate`, `prate`. -/
def SeedInterval.rate (x : SeedInterval) : ℚ :=
  if x.dt > 0 then (x.keys - x.prev).toNat / x.dt else 0

/-- Where the progress thread is. -/
inductive SeedPhase where
  /-- It waits for the next tick. -/
  | waiting
  /-- The clock has said `now`, and it is going to read `prim_ops` of the worker `t`, if there is
  one. -/
  | reading (now : UInt64) (t : ℕ) (keys : UInt64)
  /-- It has ended. -/
  | ended

/-- `seed_progress`, with the variables of `seed_progress_main`, the samples and the lines so
far. -/
structure SeedProgress where
  /-- `prev_t`. -/
  prevT : UInt64
  /-- `prev_keys`. -/
  prevKeys : UInt64
  /-- `print_t`. -/
  printT : UInt64
  /-- `print_keys`. -/
  printKeys : UInt64
  /-- `last_sec`. -/
  lastSec : ℕ
  /-- `tick`. -/
  tick : ℕ
  /-- Where the thread is. -/
  phase : SeedPhase
  /-- The samples. -/
  samples : List SeedInterval
  /-- The lines. -/
  lines : List SeedInterval

/-- The fields of `seed_progress` that are set once. -/
structure SeedWatch where
  /-- `show`. -/
  shown : Bool
  /-- `sampling`. -/
  sampling : Bool
  /-- `interval`. -/
  interval : Binary64
  /-- `t0`. -/
  t0 : UInt64

/-- `iv`. -/
def SeedWatch.iv (o : SeedWatch) : Binary64 :=
  match o.sampling, o.interval with
  | true, .finite q => if 0 < q ∧ q < 1 / 4 then .finite q else .finite (1 / 4)
  | true, _ => .finite (1 / 4)
  | false, _ => .finite 1

/-- `PROGRESS_STEP_NS`. -/
def progressStepNs : UInt64 := 20000000

section SeedSteps

variable (toUInt64 : Binary64 → UInt64) (o : SeedWatch) {n : ℕ}

/-- `iv_ns`. -/
def ivNs : UInt64 :=
  let ns := toUInt64 (o.iv.scale (10 ^ 9))
  if ns < progressStepNs then progressStepNs else ns

/-- The progress thread before it starts. -/
def seedProgressStart : SeedProgress where
  prevT := o.t0
  prevKeys := 0
  printT := o.t0
  printKeys := 0
  lastSec := 0
  tick := 0
  phase := .waiting
  samples := []
  lines := []

/-- The rest of a tick of `seed_progress_main`, after the keys are added up. -/
def seedTick (p : SeedProgress) (now keys : UInt64) : SeedProgress :=
  let rate : SeedInterval := { prev := p.prevKeys, keys, dt := inSeconds (now - p.prevT) }
  let p := { p with prevKeys := keys, prevT := now, phase := .waiting }
  let sec := ((now - o.t0) / 1000000000).toNat
  let p :=
    if o.shown ∧ sec > p.lastSec then
      let prate : SeedInterval := { prev := p.printKeys, keys, dt := inSeconds (now - p.printT) }
      { p with printKeys := keys, printT := now, lastSec := sec, lines := p.lines ++ [prate] }
    else p
  if o.sampling then { p with samples := p.samples ++ [rate] } else p

/-- `seed_progress_main`, event by event, beside the workers `lw`. -/
def seedProgressStep (lw : Fin n → LoadWorker) (p : SeedProgress) (e : SamplerEvent) :
    Option SeedProgress :=
  match p.phase, e with
  | .waiting, .wake seen now =>
    if seen < o.t0 + UInt64.ofNat (p.tick + 1) * ivNs toUInt64 o then none
    else some { p with tick := p.tick + 1, phase := .reading now 0 0 }
  | .waiting, .stop => some { p with phase := .ended }
  | .reading now t keys, .read =>
    if h : t < n then
      some { p with phase := .reading now (t + 1) (keys + UInt64.ofNat (lw ⟨t, h⟩).stats.primOps) }
    else none
  | .reading now t keys, .report => if t < n then none else some (seedTick o p now keys)
  | _, _ => none

/-- The workers that seed a store and the progress thread. -/
structure Seeding (n : ℕ) where
  /-- `lw`. -/
  lw : Fin n → LoadWorker
  /-- `spg`. -/
  spg : SeedProgress

/-- What happens while a store is seeded. -/
inductive SeedEvent (n : ℕ) where
  /-- Something happens to the worker `t`. -/
  | worker (t : Fin n) (e : LoadEvent)
  /-- Something happens to the progress thread. -/
  | progress (e : SamplerEvent)

/-- The seeding of a store, event by event. -/
def seedStep (s : Seeding n) : SeedEvent n → Option (Seeding n)
  | .worker t e => (Interleave.stepAt loadStep s.lw (t, e)).map fun lw => { s with lw }
  | .progress e => (seedProgressStep toUInt64 o s.lw s.spg e).map fun spg => { s with spg }

/-- The seeding of a store on some threads, after some events. -/
def seedRun (n : ℕ) (es : List (SeedEvent n)) : Option (Seeding n) :=
  Interleave.run (seedStep toUInt64 o) { lw := loadWorkers n, spg := seedProgressStart o } es

end SeedSteps

/-- How many counters the progress thread has read at a tick, and their sum. -/
@[simp]
def SeedPhase.turn : SeedPhase → ℕ × UInt64
  | .reading _ t keys => (t, keys)
  | _ => (0, 0)

/-- The progress thread keeps track of the workers, at its ticks and at its lines. -/
structure SeedInv {n : ℕ} (o : SeedWatch) (s : Seeding n) : Prop where
  samples : o.sampling = true →
    Polling.Tracked UInt64.ofNat (fun t => (s.lw t).stats.primOps)
      (s.spg.samples.map fun x => (x.prev, x.keys)) s.spg.prevKeys s.spg.phase.turn.1
      s.spg.phase.turn.2
  lines :
    Polling.Tracked UInt64.ofNat (fun t => (s.lw t).stats.primOps)
      (s.spg.lines.map fun x => (x.prev, x.keys)) s.spg.printKeys s.spg.phase.turn.1
      s.spg.phase.turn.2

section Seeded

variable {toUInt64 : Binary64 → UInt64} {o : SeedWatch} {n : ℕ}

/-- A step of a worker that seeds a store does not lower its primitive operations. -/
theorem loadStep_primOps_le {w w' : LoadWorker} {e : LoadEvent} (hstep : loadStep w e = some w') :
  w.stats.primOps ≤ w'.stats.primOps
  := by
  obtain ⟨stats, err, ended⟩ := w
  cases ended <;> cases e <;> simp only [loadStep, reduceCtorEq, Option.some.injEq] at hstep
  case false.verb e =>
    subst hstep
    apply primOps_statsRecord_le
  all_goals rw [← hstep]

/-- The interval of a tick is told as a sample when there are samples. -/
theorem seedTick_samples (p : SeedProgress) (now keys : UInt64) :
  (seedTick o p now keys).prevKeys = keys ∧ (seedTick o p now keys).phase = .waiting ∧
    (o.sampling = true → (seedTick o p now keys).samples.map (fun x => (x.prev, x.keys))
      = p.samples.map (fun x => (x.prev, x.keys)) ++ [(p.prevKeys, keys)])
  := by
  rw [seedTick]
  split_ifs <;> simp_all

/-- The interval since the last line is told as a line, or nothing is. -/
theorem seedTick_lines (p : SeedProgress) (now keys : UInt64) :
  ((seedTick o p now keys).printKeys = keys ∧
      (seedTick o p now keys).lines.map (fun x => (x.prev, x.keys))
        = p.lines.map (fun x => (x.prev, x.keys)) ++ [(p.printKeys, keys)]) ∨
    ((seedTick o p now keys).printKeys = p.printKeys ∧ (seedTick o p now keys).lines = p.lines)
  := by
  rw [seedTick]
  split_ifs <;> simp

/-- An event of a seeding keeps track of the workers. -/
theorem SeedInv.step {s s' : Seeding n} {e : SeedEvent n} (h : SeedInv o s)
    (hstep : seedStep toUInt64 o s e = some s') :
  SeedInv o s'
  := by
  cases e with
  | worker t e =>
    obtain ⟨lw, hlw, rfl⟩ := Option.map_eq_some_iff.mp hstep
    obtain ⟨w, hw, rfl⟩ := Option.map_eq_some_iff.mp hlw
    have hraise : ∀ u, (s.lw u).stats.primOps ≤ (Function.update s.lw t w u).stats.primOps := by
      intro u
      rcases eq_or_ne u t with rfl | hne
      · simpa using loadStep_primOps_le hw
      · simp [hne]
    constructor
    case samples =>
      intro hsampling
      apply (h.samples hsampling).raise hraise
    case lines => apply h.lines.raise hraise
  | progress e =>
    obtain ⟨p, hp, rfl⟩ := Option.map_eq_some_iff.mp hstep
    obtain ⟨lw, spg⟩ := s
    obtain ⟨hsamples, hlines⟩ := h
    dsimp only at hp hsamples hlines
    cases hphase : spg.phase <;> cases e <;> simp only [seedProgressStep, hphase, reduceCtorEq,
      Option.some.injEq, Option.ite_none_left_eq_some, Option.dite_none_right_eq_some] at hp
    case waiting.wake seen now =>
      obtain ⟨-, rfl⟩ := hp
      rw [hphase] at hsamples hlines
      exact ⟨hsamples, hlines⟩
    case waiting.stop =>
      subst hp
      rw [hphase] at hsamples hlines
      exact ⟨hsamples, hlines⟩
    case reading.read now t keys =>
      obtain ⟨ht, rfl⟩ := hp
      rw [hphase] at hsamples hlines
      have hadd := fun a b => UInt64.ofNat_add a b
      exact ⟨fun hsampling => (hsamples hsampling).read hadd ht, hlines.read hadd ht⟩
    case reading.report now t keys =>
      obtain ⟨ht, rfl⟩ := hp
      rw [hphase] at hsamples hlines
      have hlast := not_lt.mp ht
      obtain ⟨hkeys, hwaiting, htold⟩ := seedTick_samples (o := o) spg now keys
      constructor
      case samples =>
        intro hsampling
        dsimp only
        rw [hkeys, hwaiting, htold hsampling]
        apply (hsamples hsampling).tell hlast
      case lines =>
        dsimp only
        rw [hwaiting]
        rcases seedTick_lines (o := o) spg now keys with ⟨hprint, hline⟩ | ⟨hprint, hline⟩
        · rw [hprint, hline]
          apply hlines.tell hlast
        · rw [hprint, hline]
          apply hlines.skip hlast

/-- The progress thread keeps track of the workers in every interleaving. -/
theorem seedInv_seedRun {es : List (SeedEvent n)} {s : Seeding n}
    (hrun : seedRun toUInt64 o n es = some s) :
  SeedInv o s
  := by
  apply Interleave.run_induct (P := fun _ s => SeedInv o s) hrun
  · constructor
    case samples =>
      intro _
      apply Polling.Tracked.start
    case lines => apply Polling.Tracked.start
  · intro _ s e s' hinv hstep
    apply hinv.step hstep

end Seeded

/-! ## No progress is lost or counted twice -/

/-- In every interleaving of the workers of a timed phase with its sampler, no difference of the
units is negative, and the differences add up to what the last tick has read, which is not above the
units of the phase; the same holds of the primitive operations, kept in 64 bits.  And in every
interleaving of the workers that seed a store with its progress thread it holds of the keys, for the
samples and for the lines. -/
theorem progress_spec {toUInt64 : Binary64 → UInt64} {cfg : RunConfig} {threads : Int32}
    {t0 : UInt64} {es : List (PhaseEvent (nthreads threads))} {p : TimedPhase (nthreads threads)}
    {o : SeedWatch} {n : ℕ} {es' : List (SeedEvent n)} {s : Seeding n}
    (hrun : sampledRun toUInt64 cfg threads t0 es = some p)
    (hseed : seedRun toUInt64 o n es' = some s) (engine : Option Bytes) (wall : ℚ) :
  ((∀ x ∈ p.sp.samples, 0 ≤ x.unitsDelta) ∧
      (p.sp.samples.map RunSample.unitsDelta).sum = p.sp.prevUnits ∧
      p.sp.prevUnits ≤ (measureTimed engine wall (List.ofFn p.ws)).units) ∧
    Polling.Reported (p.sp.samples.map fun x => (x.prevOps, x.curOps)) p.sp.prevOps
      (measureTimed engine wall (List.ofFn p.ws)).stats.primOps ∧
    (o.sampling = true →
      Polling.Reported (s.spg.samples.map fun x => (x.prev, x.keys)) s.spg.prevKeys
        (∑ t, (s.lw t).stats.primOps)) ∧
    Polling.Reported (s.spg.lines.map fun x => (x.prev, x.keys)) s.spg.printKeys
      (∑ t, (s.lw t).stats.primOps)
  := by
  have hphase := (phaseInv_sampledRun hrun).sampler
  have hseeding := seedInv_seedRun hseed
  obtain ⟨hdelta, hsum, hle⟩ := hphase.units.exact
  rw [measureTimed_sum_units, measureTimed_primOps]
  and_intros
  · intro x hx
    apply hdelta _ (List.mem_map_of_mem hx)
  · rw [← hsum, List.map_map]
    rfl
  · apply hle
  · apply hphase.ops.reported
  · intro hsampling
    apply (hseeding.samples hsampling).reported
  · apply hseeding.lines.reported

/-- A tick of the sampler: the worker goes on between the two reads. -/
def oneTick : List (PhaseEvent (nthreads 1)) :=
  let a : Fin (nthreads 1) := ⟨0, by decide⟩
  [.worker a (.ready 0), .worker a (.call 0 1), .worker a (.verb (.prim 3)),
    .sampler (.wake 5 6), .sampler .read, .worker a .returned, .sampler .read, .sampler .report]

/-- A tick of the progress thread two seconds after the start, with a sample and a line. -/
def oneLine : List (SeedEvent 1) :=
  [.worker 0 (.verb (.prim 2)), .progress (.wake 2000000000 2000000001), .progress .read,
    .worker 0 (.verb (.prim 4)), .progress .report]

/-- A timed phase and a seeding with one tick each. -/
theorem progress_spec_example :
  ∃ p s, sampledRun (fun _ => 1) { ops := 1 } 1 0 oneTick = some p ∧
    seedRun (fun _ => 1) ⟨true, true, .finite 1, 0⟩ 1 oneLine = some s ∧
    p.sp.prevUnits ≤ (measureTimed none 1 (List.ofFn p.ws)).units ∧
    Polling.Reported (s.spg.lines.map fun x => (x.prev, x.keys)) s.spg.printKeys
      (∑ t, (s.lw t).stats.primOps)
  := by
  obtain ⟨p, hrun⟩ : ∃ p, sampledRun (fun _ => 1) { ops := 1 } 1 0 oneTick = some p := ⟨_, rfl⟩
  obtain ⟨s, hseed⟩ : ∃ s, seedRun (fun _ => 1) ⟨true, true, .finite 1, 0⟩ 1 oneLine = some s :=
    ⟨_, rfl⟩
  obtain ⟨⟨-, -, hle⟩, -, -, hlines⟩ := progress_spec hrun hseed none 1
  exact ⟨p, s, hrun, hseed, hle, hlines⟩

end Keybench
