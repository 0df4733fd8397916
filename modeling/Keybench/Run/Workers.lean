import Keybench.Kv.Stats
import Keybench.Lib.Interleave
import Keybench.Run.Args

/-!
# The workers of a timed phase

A timed phase runs a worker on each of its threads.  A worker opens the workload, finds `run`
and calls it until it has done its share of the units, or until the time is up, or until a call
fails.  `workerStep` is what a worker does at an event, and a timed phase is any interleaving of
the events of its workers.  `measureTimed` gathers the workers that have ended.

A phase that is bounded by a count shares the units out, and when all workers are ready and no
call fails each of them calls `run` once with each number of its share (`measureTimed_spec`).
-/

namespace Keybench

/-! ## The result of a phase -/

/-- The threads of a phase. -/
def nthreads (threads : Int32) : ℕ := if threads < 1 then 1 else threads.toInt.toNat

/-- `point_result`. -/
structure PointResult where
  /-- `stats`. -/
  stats : OpStats
  /-- `units`. -/
  units : ℕ
  /-- `wall`, in seconds. -/
  wall : ℚ
  /-- `engine`. -/
  engine : Option Bytes
  /-- `ok`. -/
  ok : Bool

/-! ## Workers -/

/-- Where a worker is. -/
inductive WorkerPhase where
  /-- It opens the workload and looks for `run`. -/
  | opening
  /-- It is at the head of its loop, begun at `t0`, after `i` calls. -/
  | looping (t0 : UInt64) (i : ℕ)
  /-- It is in a call of `run`. -/
  | running (t0 : UInt64) (i : ℕ)
  /-- It has ended. -/
  | ended
deriving DecidableEq

/-- Whether the script of the workload has control. -/
@[simp]
def WorkerPhase.busy : WorkerPhase → Bool
  | .opening => true
  | .running _ _ => true
  | _ => false

/-- `worker`, the fields that change or decide how long it runs. -/
structure TimedWorker where
  /-- `ops`. -/
  ops : ℤ
  /-- `kc.stats`. -/
  stats : OpStats
  /-- `units`. -/
  units : ℕ
  /-- `err`. -/
  err : Bool
  /-- Where the worker is. -/
  phase : WorkerPhase

/-- What happens to a worker. -/
inductive WorkerEvent where
  /-- A verb records an event. -/
  | verb (e : StatsEvent)
  /-- `open_workload` fails. -/
  | noWorkload
  /-- The workload has no `run`. -/
  | noRun
  /-- `run` is found, and the clock is read. -/
  | ready (t0 : UInt64)
  /-- The loop ends when the clock says `now`. -/
  | stop (now : UInt64)
  /-- The clock says `now`, and `run` is called with `ctx.iter`. -/
  | call (now : UInt64) (iter : ℕ)
  /-- The call of `run` returns. -/
  | returned
  /-- The call of `run` raises an error. -/
  | raised
deriving DecidableEq

/-- Whether an event is a failure of the worker. -/
@[simp]
def WorkerEvent.isFailure : WorkerEvent → Bool
  | .noWorkload => true
  | .noRun => true
  | .raised => true
  | _ => false

/-- Whether an event is a call of `run` that has succeeded. -/
@[simp]
def WorkerEvent.isReturn : WorkerEvent → Bool
  | .returned => true
  | _ => false

/-- The `ctx.iter` of a call. -/
@[simp]
def WorkerEvent.iter : WorkerEvent → Option ℕ
  | .call _ iter => some iter
  | _ => none

/-- The values of `ctx.iter` in the calls of a worker. -/
def ctxIters (es : List WorkerEvent) : List ℕ := es.filterMap WorkerEvent.iter

@[simp]
theorem ctxIters_nil :
  ctxIters [] = []
  := rfl

@[simp]
theorem ctxIters_concat (es : List WorkerEvent) (e : WorkerEvent) :
  ctxIters (es ++ [e]) = ctxIters es ++ e.iter.toList
  := by
  rw [ctxIters, List.filterMap_append, ← ctxIters]
  cases e <;> rfl

section Steps

-- C leaves the conversion of a number that is out of range to the machine.
variable (toUInt64 : Binary64 → UInt64) (cfg : RunConfig)

/-- The two break conditions of the loop of `worker_main`. -/
def LoopEnds (ops : ℤ) (t0 : UInt64) (i : ℕ) (now : UInt64) : Prop :=
  (cfg.secs.NonPositive ∧ (i : ℤ) ≥ ops) ∨
    (cfg.secs.Positive ∧ now - t0 ≥ toUInt64 (cfg.secs.scale (10 ^ 9)))

instance (ops : ℤ) (t0 : UInt64) (i : ℕ) (now : UInt64) :
    Decidable (LoopEnds toUInt64 cfg ops t0 i now) :=
  inferInstanceAs (Decidable (_ ∨ _))

/-- `worker_main`, event by event. -/
def workerStep (w : TimedWorker) (e : WorkerEvent) : Option TimedWorker :=
  match w.phase, e with
  | .opening, .verb e => some { w with stats := statsRecord w.stats e }
  | .opening, .noWorkload => some { w with err := true, phase := .ended }
  | .opening, .noRun => some { w with err := true, phase := .ended }
  | .opening, .ready t0 => some { w with phase := .looping t0 0 }
  | .looping t0 i, .stop now =>
    if LoopEnds toUInt64 cfg w.ops t0 i now then some { w with units := i, phase := .ended }
    else none
  | .looping t0 i, .call now iter =>
    if ¬ LoopEnds toUInt64 cfg w.ops t0 i now ∧ iter = i + 1 then
      some { w with phase := .running t0 i }
    else none
  | .running _ _, .verb e => some { w with stats := statsRecord w.stats e }
  | .running t0 i, .returned => some { w with units := i + 1, phase := .looping t0 (i + 1) }
  | .running _ i, .raised => some { w with units := i, err := true, phase := .ended }
  | _, _ => none

/-- What a worker does at an event. -/
inductive WorkerMove (w : TimedWorker) : WorkerEvent → TimedWorker → Prop
  | verb (e : StatsEvent) (h : w.phase.busy = true) :
    WorkerMove w (.verb e) { w with stats := statsRecord w.stats e }
  | noWorkload (h : w.phase = .opening) :
    WorkerMove w .noWorkload { w with err := true, phase := .ended }
  | noRun (h : w.phase = .opening) : WorkerMove w .noRun { w with err := true, phase := .ended }
  | ready (t0 : UInt64) (h : w.phase = .opening) :
    WorkerMove w (.ready t0) { w with phase := .looping t0 0 }
  | stop {t0 : UInt64} {i : ℕ} (now : UInt64) (h : w.phase = .looping t0 i)
    (hends : LoopEnds toUInt64 cfg w.ops t0 i now) :
    WorkerMove w (.stop now) { w with units := i, phase := .ended }
  | call {t0 : UInt64} {i : ℕ} (now : UInt64) (h : w.phase = .looping t0 i)
    (hgoes : ¬ LoopEnds toUInt64 cfg w.ops t0 i now) :
    WorkerMove w (.call now (i + 1)) { w with phase := .running t0 i }
  | returned {t0 : UInt64} {i : ℕ} (h : w.phase = .running t0 i) :
    WorkerMove w .returned { w with units := i + 1, phase := .looping t0 (i + 1) }
  | raised {t0 : UInt64} {i : ℕ} (h : w.phase = .running t0 i) :
    WorkerMove w .raised { w with units := i, err := true, phase := .ended }

/-! ## A phase -/

/-- The units of a worker. -/
def workerOps (n t : ℕ) : ℤ :=
  if cfg.secs.Positive then 0 else cfg.ops.tdiv n + if (t : ℤ) < cfg.ops.tmod n then 1 else 0

/-- The workers of a phase before they start. -/
def timedWorkers (n : ℕ) (t : Fin n) : TimedWorker where
  ops := workerOps cfg n t
  stats := statsReset
  units := 0
  err := false
  phase := .opening

/-- The workers of a phase after some events of theirs. -/
def timedRun (threads : Int32) (es : List (Fin (nthreads threads) × WorkerEvent)) :
    Option (Fin (nthreads threads) → TimedWorker) :=
  Interleave.run (Interleave.stepAt (workerStep toUInt64 cfg)) (timedWorkers cfg (nthreads threads))
    es

end Steps

/-- The end of `measure_timed`, when its workers have ended. -/
def measureTimed (engine : Option Bytes) (wall : ℚ) (ws : List TimedWorker) : PointResult where
  stats := measureStats (ws.map TimedWorker.stats)
  units := (ws.map TimedWorker.units).sum
  wall := wall
  engine := engine
  ok := ! ws.any TimedWorker.err

/-! ## One worker -/

/-- The calls that have begun and not ended. -/
@[simp]
def WorkerPhase.pending : WorkerPhase → ℕ
  | .running _ _ => 1
  | _ => 0

/-- The loop counter of a worker that has not ended. -/
@[simp]
def WorkerPhase.counter : WorkerPhase → Option ℕ
  | .opening => some 0
  | .looping _ i => some i
  | .running _ i => some i
  | .ended => none

/-- What a worker with a share of `ops` units has done after its events. -/
structure WorkerInv (cfg : RunConfig) (ops : ℤ) (es : List WorkerEvent) (w : TimedWorker) :
    Prop where
  share : w.ops = ops
  units : w.units = es.countP WorkerEvent.isReturn
  err : w.err = es.any WorkerEvent.isFailure
  iters : ctxIters es
    = (List.range (w.units + es.count .raised + w.phase.pending)).map (· + 1)
  counter : ∀ i, w.phase.counter = some i → w.units = i ∧ w.err = false
  bound : cfg.secs.NonPositive → 0 ≤ ops → (w.units + w.phase.pending : ℤ) ≤ ops
  ended : cfg.secs.NonPositive → w.phase = .ended → w.err = false → ops ≤ w.units

/-- A worker that has not failed has no failed call. -/
theorem count_raised {es : List WorkerEvent} (h : es.any WorkerEvent.isFailure = false) :
  es.count .raised = 0
  := by
  rw [List.count_eq_zero]
  intro hmem
  have hfail := List.any_eq_false.mp h _ hmem
  apply hfail rfl

/-- A worker before it starts. -/
theorem WorkerInv.start {cfg : RunConfig} {w : TimedWorker} (hunits : w.units = 0)
    (herr : w.err = false) (hphase : w.phase = .opening) :
  WorkerInv cfg w.ops [] w
  := by
  constructor
  case share => rfl
  case units => rw [hunits, List.countP_nil]
  case err => rw [herr, List.any_nil]
  case iters => simp [hunits, hphase]
  case counter =>
    intro i hi
    rw [hphase] at hi
    obtain rfl := Option.some.inj hi
    exact ⟨hunits, herr⟩
  case bound =>
    intro _ hops
    simp [hunits, hphase, hops]
  case ended =>
    intro _ hended
    rw [hphase] at hended
    cases hended

/-- A step of a worker is one of its moves. -/
theorem workerStep_move {toUInt64 : Binary64 → UInt64} {cfg : RunConfig} {w w' : TimedWorker}
    {e : WorkerEvent} (hstep : workerStep toUInt64 cfg w e = some w') :
  WorkerMove toUInt64 cfg w e w'
  := by
  obtain ⟨ops, stats, units, err, phase⟩ := w
  cases phase <;> cases e <;> simp only [workerStep, reduceCtorEq, Option.some.injEq,
    Option.ite_none_right_eq_some] at hstep
  case looping.stop t0 i now =>
    obtain ⟨hends, rfl⟩ := hstep
    apply WorkerMove.stop now rfl hends
  case looping.call t0 i now iter =>
    obtain ⟨⟨hgoes, rfl⟩, rfl⟩ := hstep
    apply WorkerMove.call now rfl hgoes
  all_goals
    subst hstep
    constructor
    rfl

/-- An event keeps what a worker has done in step with its events. -/
theorem WorkerInv.step {toUInt64 : Binary64 → UInt64} {cfg : RunConfig} {ops : ℤ}
    {es : List WorkerEvent} {w w' : TimedWorker} {e : WorkerEvent} (h : WorkerInv cfg ops es w)
    (hstep : workerStep toUInt64 cfg w e = some w') :
  WorkerInv cfg ops (es ++ [e]) w'
  := by
  obtain ⟨wops, stats, units, err, phase⟩ := w
  obtain ⟨rfl, hunits, herr, hiters, hcounter, hbound, hended⟩ := h
  dsimp only at hunits herr hiters hcounter hbound hended
  cases workerStep_move hstep with
  | verb e hbusy =>
    exact ⟨rfl, by simpa using hunits, by simpa using herr, by simpa using hiters, hcounter, hbound,
      hended⟩
  | noWorkload hphase =>
    obtain rfl : phase = .opening := hphase
    obtain ⟨rfl, rfl⟩ := hcounter 0 rfl
    exact ⟨rfl, by simpa using hunits, by simp, by simpa using hiters, by simp, hbound, by simp⟩
  | noRun hphase =>
    obtain rfl : phase = .opening := hphase
    obtain ⟨rfl, rfl⟩ := hcounter 0 rfl
    exact ⟨rfl, by simpa using hunits, by simp, by simpa using hiters, by simp, hbound, by simp⟩
  | ready t0 hphase =>
    obtain rfl : phase = .opening := hphase
    obtain ⟨rfl, rfl⟩ := hcounter 0 rfl
    exact ⟨rfl, by simpa using hunits, by simpa using herr, by simpa using hiters, by simp, hbound,
      by simp⟩
  | @stop t0 i now hphase hends =>
    obtain rfl : phase = .looping t0 i := hphase
    obtain ⟨rfl, rfl⟩ := hcounter i rfl
    refine ⟨rfl, by simpa using hunits, by simpa using herr, by simpa using hiters, by simp, hbound,
      ?_⟩
    -- A phase that is bounded by a count ends its loop at the count.
    intro hsecs _ _
    rcases hends with ⟨_, hcount⟩ | ⟨htime, _⟩
    · apply hcount
    · exact absurd htime hsecs.not_positive
  | @call t0 i now hphase hgoes =>
    obtain rfl : phase = .looping t0 i := hphase
    obtain ⟨rfl, rfl⟩ := hcounter i rfl
    have hraised := count_raised herr.symm
    refine ⟨rfl, by simpa using hunits, by simpa using herr, ?_, by simp, ?_, by simp⟩
    · simp [hiters, hraised, List.range_succ]
    · intro hsecs _
      have hcount : ¬ (units : ℤ) ≥ wops := fun h => hgoes (.inl ⟨hsecs, h⟩)
      simp only [WorkerPhase.pending, Nat.cast_one]
      omega
  | @returned t0 i hphase =>
    obtain rfl : phase = .running t0 i := hphase
    obtain ⟨rfl, rfl⟩ := hcounter i rfl
    have hraised := count_raised herr.symm
    refine ⟨rfl, by simpa using hunits, by simpa using herr, ?_, by simp, ?_, by simp⟩
    · simp [hiters, hraised]
    · simpa using hbound
  | @raised t0 i hphase =>
    obtain rfl : phase = .running t0 i := hphase
    obtain ⟨rfl, rfl⟩ := hcounter i rfl
    have hraised := count_raised herr.symm
    refine ⟨rfl, by simpa using hunits, by simp, ?_, by simp, ?_, by simp⟩
    · simp [hiters, hraised]
    · intro hsecs hops
      have hlt := hbound hsecs hops
      simp only [WorkerPhase.pending, Nat.cast_one, Nat.cast_zero] at hlt ⊢
      omega

/-- What a worker of a phase has done after its events. -/
theorem workerInv_timedRun {toUInt64 : Binary64 → UInt64} {cfg : RunConfig} {threads : Int32}
    {es : List (Fin (nthreads threads) × WorkerEvent)} {ws : Fin (nthreads threads) → TimedWorker}
    (hrun : timedRun toUInt64 cfg threads es = some ws) (t : Fin (nthreads threads)) :
  WorkerInv cfg (workerOps cfg (nthreads threads) t) (Interleave.own t es) (ws t)
  := by
  apply Interleave.run_induct ((Interleave.run_stepAt_iff _ _ es).mp hrun t)
  · apply WorkerInv.start (w := timedWorkers cfg (nthreads threads) t) rfl rfl rfl
  · intro es s e s' hinv hstep
    apply hinv.step hstep

/-! ## The shares -/

theorem nthreads_pos (threads : Int32) :
  0 < nthreads threads
  := by
  rw [nthreads]
  split_ifs with h
  · apply Nat.one_pos
  · rw [Int32.lt_iff_toInt_lt] at h
    have hone : (1 : Int32).toInt = 1 := rfl
    omega

/-- The share of a worker when the phase is bounded by a count. -/
theorem workerOps_eq {cfg : RunConfig} (hsecs : cfg.secs.NonPositive) (hops : 0 ≤ cfg.ops)
    (n t : ℕ) :
  workerOps cfg n t = (cfg.ops.toNat / n + if t < cfg.ops.toNat % n then 1 else 0 : ℕ)
  := by
  obtain ⟨m, hm⟩ := Int.eq_ofNat_of_zero_le hops
  rw [workerOps, if_neg hsecs.not_positive, Int.tdiv_eq_ediv_of_nonneg hops,
    Int.tmod_eq_emod_of_nonneg hops, hm, Int.toNat_natCast, ← Int.natCast_ediv,
    ← Int.natCast_emod]
  simp only [Nat.cast_lt, Nat.cast_add, Nat.cast_ite, Nat.cast_one, Nat.cast_zero]

/-- The workers that get one unit more. -/
theorem sum_indicator (n r : ℕ) (h : r ≤ n) :
  ∑ t : Fin n, (if (t : ℕ) < r then 1 else 0) = r
  := by
  have hfilter : (Finset.range n).filter (· < r) = Finset.range r := by
    ext t
    simp only [Finset.mem_filter, Finset.mem_range]
    omega
  rw [Fin.sum_univ_eq_sum_range (fun t => if t < r then 1 else 0) n, ← Finset.sum_filter, hfilter,
    Finset.sum_const, Finset.card_range, smul_eq_mul, Nat.mul_one]

/-- The shares are all the units. -/
theorem sum_workerOps {cfg : RunConfig} (hsecs : cfg.secs.NonPositive) (hops : 0 ≤ cfg.ops)
    {n : ℕ} (hn : 0 < n) :
  ∑ t : Fin n, workerOps cfg n t = cfg.ops
  := by
  have hdiv := Nat.div_add_mod cfg.ops.toNat n
  have hshares : ∑ t : Fin n, (cfg.ops.toNat / n + if (t : ℕ) < cfg.ops.toNat % n then 1 else 0)
      = cfg.ops.toNat := by
    rw [Finset.sum_add_distrib, sum_indicator n _ (Nat.mod_lt _ hn).le, Finset.sum_const,
      Finset.card_fin, smul_eq_mul, hdiv]
  calc ∑ t : Fin n, workerOps cfg n t
    _ = ∑ t : Fin n,
        ((cfg.ops.toNat / n + if (t : ℕ) < cfg.ops.toNat % n then 1 else 0 : ℕ) : ℤ) :=
      Finset.sum_congr rfl fun t _ => workerOps_eq hsecs hops n t
    _ = (cfg.ops.toNat : ℤ) := by rw [← Nat.cast_sum, hshares]
    _ = cfg.ops := Int.toNat_of_nonneg hops

/-- Two shares differ by at most one unit. -/
theorem workerOps_le {cfg : RunConfig} (hsecs : cfg.secs.NonPositive) (hops : 0 ≤ cfg.ops)
    (n t u : ℕ) :
  workerOps cfg n t ≤ workerOps cfg n u + 1
  := by
  rw [workerOps_eq hsecs hops, workerOps_eq hsecs hops]
  split_ifs <;> omega

theorem workerOps_nonneg {cfg : RunConfig} (hsecs : cfg.secs.NonPositive) (hops : 0 ≤ cfg.ops)
    (n t : ℕ) :
  0 ≤ workerOps cfg n t
  := by
  rw [workerOps_eq hsecs hops]
  apply Int.natCast_nonneg

/-! ## The result of a phase -/

section Phase

variable {toUInt64 : Binary64 → UInt64} {cfg : RunConfig} {threads : Int32}
  {es : List (Fin (nthreads threads) × WorkerEvent)} {ws : Fin (nthreads threads) → TimedWorker}
  (hrun : timedRun toUInt64 cfg threads es = some ws)

include hrun

omit hrun in
/-- When no worker has failed, none has. -/
theorem own_good (hgood : ∀ x ∈ es, x.2.isFailure = false) (t : Fin (nthreads threads)) :
  (Interleave.own t es).any WorkerEvent.isFailure = false
  := by
  rw [List.any_eq_false]
  intro e he
  rw [hgood _ (Interleave.mem_own.mp he)]
  apply Bool.false_ne_true

/-- The units of a phase are the calls that have succeeded. -/
theorem measureTimed_units (engine : Option Bytes) (wall : ℚ) :
  (measureTimed engine wall (List.ofFn ws)).units = es.countP fun x => x.2.isReturn
  := by
  have hunits : ∀ t ∈ List.finRange (nthreads threads),
      (TimedWorker.units ∘ ws) t = (Interleave.own t es).countP WorkerEvent.isReturn :=
    fun t _ => (workerInv_timedRun hrun t).units
  rw [← Interleave.sum_countP_own, ← List.map_congr_left hunits, ← List.map_map,
    ← List.ofFn_eq_map]
  rfl

/-- A phase is all right when no worker has failed. -/
theorem measureTimed_ok_iff (engine : Option Bytes) (wall : ℚ) :
  (measureTimed engine wall (List.ofFn ws)).ok = true ↔ ∀ x ∈ es, x.2.isFailure = false
  := by
  have herr : ∀ t, (ws t).err = (Interleave.own t es).any WorkerEvent.isFailure :=
    fun t => (workerInv_timedRun hrun t).err
  simp only [measureTimed, Bool.not_eq_true', List.any_eq_false, List.mem_ofFn, forall_exists_index,
    forall_apply_eq_imp_iff, herr, Interleave.mem_own, Bool.not_eq_true, Prod.forall]

/-- A worker that has ended without a failure has called `run` with each number of its share. -/
theorem ctxIters_of_ended (hsecs : cfg.secs.NonPositive) (hops : 0 ≤ cfg.ops)
    {t : Fin (nthreads threads)} (hended : (ws t).phase = .ended)
    (hgood : (Interleave.own t es).any WorkerEvent.isFailure = false) :
  ctxIters (Interleave.own t es)
      = (List.range (workerOps cfg (nthreads threads) t).toNat).map (· + 1) ∧
    ((ws t).units : ℤ) = workerOps cfg (nthreads threads) t
  := by
  have hinv := workerInv_timedRun hrun t
  have herr : (ws t).err = false := by rw [hinv.err, hgood]
  have hle := hinv.bound hsecs (workerOps_nonneg hsecs hops _ t)
  have hge := hinv.ended hsecs hended herr
  have hunits : ((ws t).units : ℤ) = workerOps cfg (nthreads threads) t := by
    simp only [hended, WorkerPhase.pending, Nat.cast_zero, add_zero] at hle
    omega
  constructor
  · rw [hinv.iters, count_raised hgood, hended, ← hunits]
    rfl
  · apply hunits

omit hrun in
/-- The units of a phase are those of its workers. -/
theorem measureTimed_sum_units (engine : Option Bytes) (wall : ℚ)
    (ws : Fin (nthreads threads) → TimedWorker) :
  (measureTimed engine wall (List.ofFn ws)).units = ∑ t, (ws t).units
  := by
  simp only [measureTimed, List.map_ofFn, List.sum_ofFn, Function.comp_apply]

/-- When all workers have ended without a failure, the units of the phase are those asked for. -/
theorem measureTimed_units_of_ended (hsecs : cfg.secs.NonPositive) (hops : 0 ≤ cfg.ops)
    (hended : ∀ t, (ws t).phase = .ended) (hgood : ∀ x ∈ es, x.2.isFailure = false)
    (engine : Option Bytes) (wall : ℚ) :
  ((measureTimed engine wall (List.ofFn ws)).units : ℤ) = cfg.ops
  := by
  have hown : ∀ t, ((ws t).units : ℤ) = workerOps cfg (nthreads threads) t := by
    intro t
    apply (ctxIters_of_ended hrun hsecs hops (hended t) (own_good hgood t)).2
  rw [measureTimed_sum_units, Nat.cast_sum, Finset.sum_congr rfl fun t _ => hown t,
    sum_workerOps hsecs hops (nthreads_pos threads)]

/-- A worker that has not ended can go on, and it never calls `run` more often than its share. -/
theorem timedRun_continues (hsecs : cfg.secs.NonPositive) (hops : 0 ≤ cfg.ops)
    (t : Fin (nthreads threads)) :
  ((ws t).phase = .ended ∨ ∃ e w', workerStep toUInt64 cfg (ws t) e = some w') ∧
    ((Interleave.own t es).countP WorkerEvent.isReturn : ℤ) + (ws t).phase.pending
      ≤ workerOps cfg (nthreads threads) t
  := by
  have hinv := workerInv_timedRun hrun t
  constructor
  · obtain ⟨ops, stats, units, err, phase⟩ := ws t
    cases phase with
    | opening =>
      right
      exact ⟨.ready 0, _, rfl⟩
    | looping t0 i =>
      right
      by_cases hends : LoopEnds toUInt64 cfg ops t0 i 0
      · exact ⟨.stop 0, _, if_pos hends⟩
      · exact ⟨.call 0 (i + 1), _, if_pos ⟨hends, rfl⟩⟩
    | running t0 i =>
      right
      exact ⟨.returned, _, rfl⟩
    | ended =>
      left
      rfl
  · rw [← hinv.units]
    apply hinv.bound hsecs (workerOps_nonneg hsecs hops _ t)

end Phase

/-- The shares of a phase that is bounded by a count are its units, and two of them differ by at
most one.  When its workers have ended, in any interleaving, its units are the calls of `run` that
have succeeded.  If no worker has failed, the phase is all right, its units are those asked for,
and each worker has called `run` once with each number of its share, in order.  If one has failed,
the phase is not all right. -/
theorem measureTimed_spec {toUInt64 : Binary64 → UInt64} {cfg : RunConfig} {threads : Int32}
    {es : List (Fin (nthreads threads) × WorkerEvent)} {ws : Fin (nthreads threads) → TimedWorker}
    (hsecs : cfg.secs.NonPositive) (hops : 0 ≤ cfg.ops)
    (hrun : timedRun toUInt64 cfg threads es = some ws) (hended : ∀ t, (ws t).phase = .ended)
    (engine : Option Bytes) (wall : ℚ) :
  (∑ t : Fin (nthreads threads), workerOps cfg (nthreads threads) t = cfg.ops ∧
      ∀ t u : Fin (nthreads threads),
        workerOps cfg (nthreads threads) t ≤ workerOps cfg (nthreads threads) u + 1) ∧
    (measureTimed engine wall (List.ofFn ws)).units = es.countP (fun x => x.2.isReturn) ∧
    ((∀ x ∈ es, x.2.isFailure = false) →
      (measureTimed engine wall (List.ofFn ws)).ok = true ∧
      ((measureTimed engine wall (List.ofFn ws)).units : ℤ) = cfg.ops ∧
      ∀ t, ctxIters (Interleave.own t es)
        = (List.range (workerOps cfg (nthreads threads) t).toNat).map (· + 1)) ∧
    ((∃ x ∈ es, x.2.isFailure = true) → (measureTimed engine wall (List.ofFn ws)).ok = false)
  := by
  and_intros
  · apply sum_workerOps hsecs hops (nthreads_pos threads)
  · intro t u
    apply workerOps_le hsecs hops
  · apply measureTimed_units hrun
  · intro hgood
    and_intros
    · apply (measureTimed_ok_iff hrun engine wall).mpr hgood
    · apply measureTimed_units_of_ended hrun hsecs hops hended hgood
    · intro t
      apply (ctxIters_of_ended hrun hsecs hops (hended t) (own_good hgood t)).1
  · rintro ⟨x, hx, hfail⟩
    rw [← Bool.not_eq_true, measureTimed_ok_iff hrun]
    intro hgood
    rw [hgood x hx] at hfail
    cases hfail

/-- Two workers share three units, and their events alternate. -/
def threeUnits : List (Fin (nthreads 2) × WorkerEvent) :=
  let a : Fin (nthreads 2) := ⟨0, by decide⟩
  let b : Fin (nthreads 2) := ⟨1, by decide⟩
  [(a, .ready 5), (b, .ready 6), (a, .call 0 1), (b, .call 0 1), (b, .verb .hit), (a, .returned),
    (a, .call 0 2), (b, .returned), (b, .stop 0), (a, .returned), (a, .stop 0)]

/-- Two workers that share three units. -/
theorem measureTimed_spec_example :
  ∃ ws, timedRun (fun _ => 0) { ops := 3 } 2 threeUnits = some ws ∧
    (measureTimed none 1 (List.ofFn ws)).ok = true ∧
    ((measureTimed none 1 (List.ofFn ws)).units : ℤ) = 3
  := by
  obtain ⟨ws, hrun⟩ : ∃ ws, timedRun (fun _ => 0) { ops := 3 } 2 threeUnits = some ws := ⟨_, rfl⟩
  have hended : ∀ t, (ws t).phase = .ended := by
    obtain rfl := Option.some.inj hrun
    decide
  obtain ⟨_, _, hgood, _⟩ := measureTimed_spec (by decide) (by decide) hrun hended none 1
  obtain ⟨hok, hunits, _⟩ := hgood (by decide)
  exact ⟨ws, hrun, hok, hunits⟩

/-- A workload without `run` fails no call, and five units asked for are not done. -/
theorem measureTimed_no_run :
  ∃ ws, timedRun (fun _ => 0) { ops := 5 } 1 [(⟨0, by decide⟩, .noRun)] = some ws ∧
    (∀ t, (ws t).phase = .ended) ∧
    (∀ x ∈ [((⟨0, by decide⟩ : Fin (nthreads 1)), WorkerEvent.noRun)], x.2 ≠ .raised) ∧
    (measureTimed none 1 (List.ofFn ws)).units = 0 ∧
    (measureTimed none 1 (List.ofFn ws)).ok = false
  := by
  obtain ⟨ws, hrun⟩ : ∃ ws, timedRun (fun _ => 0) { ops := 5 } 1 [(⟨0, by decide⟩, .noRun)]
      = some ws := ⟨_, rfl⟩
  have hended : ∀ t, (ws t).phase = .ended := by
    obtain rfl := Option.some.inj hrun
    decide
  have hunits : (measureTimed none 1 (List.ofFn ws)).units = 0 := by
    rw [measureTimed_units hrun]
    rfl
  have hok : (measureTimed none 1 (List.ofFn ws)).ok = false := by
    rw [← Bool.not_eq_true, measureTimed_ok_iff hrun]
    decide
  exact ⟨ws, hrun, hended, by decide, hunits, hok⟩

end Keybench
