import Keybench.Run.Precedence
import Keybench.Run.Workers

/-!
# When the workers of a run end

The loop of a worker has two ways out, one for a run that is bounded by a count and one for a run
that is bounded by a time.  Which of them is open is decided by two comparisons of the time bound
with zero.  They are complementary for all numbers but not for what is not a number: the workers
of a run end exactly when the time bound of the run is not NaN (`workersEnd_iff`).
-/

namespace Keybench

/-! ## Workers that never end -/

/-- The value of the loop counter at the next head of the loop. -/
@[simp]
def WorkerPhase.nextIter : WorkerPhase → ℕ
  | .running _ i => i + 1
  | _ => 0

/-- What the clock says at the head of the loop. -/
@[simp]
def WorkerEvent.reading : WorkerEvent → Option UInt64
  | .stop now => some now
  | .call now _ => some now
  | _ => none

/-- A worker goes on for ever, although its workload opens, each call of `run` comes back, and the
time since the start of the loop gets past each bound that a `uint64_t` can hold. -/
structure GoesOn (toUInt64 : Binary64 → UInt64) (cfg : RunConfig) (w : TimedWorker)
    (ws : ℕ → TimedWorker) (es : ℕ → WorkerEvent) : Prop where
  run : Interleave.Endless (workerStep toUInt64 cfg) w ws es
  returns : ∀ k, ∃ j ≥ k, (ws j).phase.busy = false
  clock : ∀ b, ∃ k t0 i now,
    (ws k).phase = .looping t0 i ∧ (es k).reading = some now ∧ now - t0 ≥ b

/-- The workers of a timed phase end, on any number of threads. -/
def WorkersEnd (toUInt64 : Binary64 → UInt64) (cfg : RunConfig) : Prop :=
  ∀ (threads : Int32) (t : Fin (nthreads threads)) (ws : ℕ → TimedWorker) (es : ℕ → WorkerEvent),
    ¬ GoesOn toUInt64 cfg (timedWorkers cfg (nthreads threads) t) ws es

/-! ## One endless worker -/

section Steps

variable {toUInt64 : Binary64 → UInt64} {cfg : RunConfig} {w w' : TimedWorker} {e : WorkerEvent}

/-- Nothing happens to a worker that has ended. -/
theorem workerStep_ended (hended : w.phase = .ended) (e : WorkerEvent) :
  workerStep toUInt64 cfg w e = none
  := by
  obtain ⟨ops, stats, units, err, phase⟩ := w
  obtain rfl : phase = .ended := hended
  cases e <;> rfl

/-- A step of a worker leaves its share. -/
theorem workerStep_ops (hstep : workerStep toUInt64 cfg w e = some w') :
  w'.ops = w.ops
  := by
  cases workerStep_move hstep <;> rfl

/-- A step of a busy worker keeps it where it is, ends it, or takes it to the head of its loop. -/
theorem workerStep_busy (hstep : workerStep toUInt64 cfg w e = some w')
    (hbusy : w.phase.busy = true) :
  w'.phase = w.phase ∨ w'.phase = .ended ∨ ∃ t0, w'.phase = .looping t0 w.phase.nextIter
  := by
  cases workerStep_move hstep with
  | verb e h => exact .inl rfl
  | ready t0 h =>
    rw [h]
    exact .inr (.inr ⟨t0, rfl⟩)
  | returned h =>
    rw [h]
    exact .inr (.inr ⟨_, rfl⟩)
  | call now h hgoes =>
    rw [h] at hbusy
    cases hbusy
  | _ => exact .inr (.inl rfl)

/-- A step of a worker at the head of its loop ends it or calls `run`. -/
theorem workerStep_head (hstep : workerStep toUInt64 cfg w e = some w') {t0 : UInt64} {i : ℕ}
    (hhead : w.phase = .looping t0 i) :
  w'.phase = .ended ∨ w'.phase = .running t0 i ∧
    ∃ now, e.reading = some now ∧ ¬ LoopEnds toUInt64 cfg w.ops t0 i now
  := by
  cases workerStep_move hstep with
  | verb e h =>
    rw [hhead] at h
    cases h
  | ready t h =>
    rw [hhead] at h
    cases h
  | returned h =>
    rw [hhead] at h
    cases h
  | call now h hgoes =>
    rw [hhead] at h
    obtain ⟨rfl, rfl⟩ := WorkerPhase.looping.inj h
    exact .inr ⟨rfl, now, rfl, hgoes⟩
  | _ => exact .inl rfl

end Steps

section Endless

variable {toUInt64 : Binary64 → UInt64} {cfg : RunConfig} {w : TimedWorker}
  {ws : ℕ → TimedWorker} {es : ℕ → WorkerEvent}
  (hrun : Interleave.Endless (workerStep toUInt64 cfg) w ws es)

include hrun

/-- A worker of an endless run has not ended. -/
theorem endless_ne_ended (k : ℕ) :
  (ws k).phase ≠ .ended
  := by
  intro hended
  apply hrun.not_stuck k
  apply workerStep_ended hended

/-- The loop of an endless run does not end. -/
theorem endless_head {k : ℕ} {t0 : UInt64} {i : ℕ} (hhead : (ws k).phase = .looping t0 i) :
  (ws (k + 1)).phase = .running t0 i ∧
    ∃ now, (es k).reading = some now ∧ ¬ LoopEnds toUInt64 cfg (ws k).ops t0 i now
  := by
  rcases workerStep_head (hrun.next k) hhead with hended | hcall
  · exact absurd hended (endless_ne_ended hrun (k + 1))
  · apply hcall

/-- A worker of an endless run keeps its share. -/
theorem endless_ops (k : ℕ) :
  (ws k).ops = w.ops
  := by
  induction k with
  | zero => rw [hrun.start]
  | succ k ih => rw [workerStep_ops (hrun.next k), ih]

/-- A busy worker that is not busy some steps later has been at the head of its loop. -/
theorem endless_head_of_busy {k m : ℕ} (hbusy : (ws k).phase.busy = true)
    (hlater : (ws (k + m)).phase.busy = false) :
  ∃ j t0, (ws j).phase = .looping t0 (ws k).phase.nextIter
  := by
  induction m generalizing k with
  | zero =>
    rw [Nat.add_zero, hbusy] at hlater
    cases hlater
  | succ m ih =>
    rcases workerStep_busy (hrun.next k) hbusy with hsame | hended | ⟨t0, hhead⟩
    · rw [← hsame]
      apply ih
      · rw [hsame]
        apply hbusy
      · rw [Nat.add_right_comm]
        apply hlater
    · exact absurd hended (endless_ne_ended hrun (k + 1))
    · exact ⟨k + 1, t0, hhead⟩

/-- When each call comes back, the loop counter takes every value. -/
theorem endless_reaches (hphase : w.phase = .opening)
    (hreturns : ∀ k, ∃ j ≥ k, (ws j).phase.busy = false) (i : ℕ) :
  ∃ k t0, (ws k).phase = .looping t0 i
  := by
  have hnext : ∀ k, (ws k).phase.busy = true →
      ∃ j t0, (ws j).phase = .looping t0 (ws k).phase.nextIter := by
    intro k hbusy
    obtain ⟨j, hj, hidle⟩ := hreturns k
    obtain ⟨m, rfl⟩ := Nat.exists_eq_add_of_le hj
    apply endless_head_of_busy hrun hbusy hidle
  induction i with
  | zero =>
    have hstart : (ws 0).phase = .opening := by rw [hrun.start, hphase]
    have hhead := hnext 0 (by rw [hstart]; rfl)
    rw [hstart] at hhead
    apply hhead
  | succ i ih =>
    obtain ⟨k, t0, hk⟩ := ih
    have hcall := (endless_head hrun hk).1
    have hhead := hnext (k + 1) (by rw [hcall]; rfl)
    rw [hcall] at hhead
    apply hhead

end Endless

/-! ## Time bounds that are numbers -/

/-- No worker goes on for ever when the time bound is a number. -/
theorem not_goesOn {toUInt64 : Binary64 → UInt64} {cfg : RunConfig} (hsecs : cfg.secs ≠ .nan)
    {w : TimedWorker} (hphase : w.phase = .opening) {ws : ℕ → TimedWorker} {es : ℕ → WorkerEvent} :
  ¬ GoesOn toUInt64 cfg w ws es
  := by
  intro h
  rcases Binary64.ne_nan_iff.mp hsecs with hcount | htime
  · -- the counter reaches the share
    obtain ⟨k, t0, hk⟩ := endless_reaches h.run hphase h.returns w.ops.toNat
    obtain ⟨-, now, -, hgoes⟩ := endless_head h.run hk
    apply hgoes
    left
    rw [endless_ops h.run]
    exact ⟨hcount, Int.self_le_toNat w.ops⟩
  · -- the clock reaches the time bound
    obtain ⟨k, t0, i, now, hk, hread, hlate⟩ := h.clock (toUInt64 (cfg.secs.scale (10 ^ 9)))
    obtain ⟨-, now', hread', hgoes⟩ := endless_head h.run hk
    obtain rfl := Option.some.inj (hread.symm.trans hread')
    apply hgoes
    right
    exact ⟨htime, hlate⟩

/-! ## Time bounds that are not -/

/-- What a worker does that calls `run` again and again, when each turn takes a nanosecond. -/
def spin (w : TimedWorker) : WorkerEvent :=
  match w.phase with
  | .opening => .ready 0
  | .looping _ i => .call (UInt64.ofNat i) (i + 1)
  | .running _ _ => .returned
  | .ended => .noRun

/-- Where such a worker can be. -/
def WorkerPhase.spinning : WorkerPhase → Prop
  | .opening => True
  | .looping t0 _ => t0 = 0
  | .running t0 _ => t0 = 0
  | .ended => False

/-- No loop ends when the time bound is not a number. -/
theorem not_loopEnds {toUInt64 : Binary64 → UInt64} {cfg : RunConfig} (hsecs : cfg.secs = .nan)
    (ops : ℤ) (t0 : UInt64) (i : ℕ) (now : UInt64) :
  ¬ LoopEnds toUInt64 cfg ops t0 i now
  := by
  rw [LoopEnds, hsecs]
  rintro (⟨⟨⟩, -⟩ | ⟨⟨⟩, -⟩)

/-- When the time bound is not a number, such a worker takes another step, and it comes to the head
of its loop when it is not there. -/
theorem spin_step (toUInt64 : Binary64 → UInt64) {cfg : RunConfig} (hsecs : cfg.secs = .nan)
    {w : TimedWorker} (hw : w.phase.spinning) :
  ∃ w', workerStep toUInt64 cfg w (spin w) = some w' ∧ w'.phase.spinning ∧
    (w.phase.busy = true → w'.phase.busy = false)
  := by
  obtain ⟨ops, stats, units, err, phase⟩ := w
  cases phase with
  | opening => exact ⟨_, rfl, rfl, fun _ => rfl⟩
  | looping t0 i => exact ⟨_, if_pos ⟨not_loopEnds hsecs _ _ _ _, rfl⟩, hw, nofun⟩
  | running t0 i => exact ⟨_, rfl, hw, fun _ => rfl⟩
  | ended => cases hw

/-- A worker can go on for ever when the time bound is not a number. -/
theorem exists_goesOn (toUInt64 : Binary64 → UInt64) {cfg : RunConfig} (hsecs : cfg.secs = .nan)
    {w : TimedWorker} (hphase : w.phase = .opening) :
  ∃ ws es, GoesOn toUInt64 cfg w ws es
  := by
  have hstart : w.phase.spinning := by
    rw [hphase]
    trivial
  have hstep : ∀ w : TimedWorker, w.phase.spinning →
      ∃ w', workerStep toUInt64 cfg w (spin w) = some w' ∧ w'.phase.spinning := by
    intro w hw
    obtain ⟨w', hw', hspin, -⟩ := spin_step toUInt64 hsecs hw
    exact ⟨w', hw', hspin⟩
  obtain ⟨ws, hrun, hspin⟩ :=
    Interleave.exists_endless (P := fun w : TimedWorker => w.phase.spinning) hstart spin hstep
  have hreturns : ∀ k, ∃ j ≥ k, (ws j).phase.busy = false := by
    intro k
    obtain ⟨w', hw', -, hidle⟩ := spin_step toUInt64 hsecs (hspin k)
    obtain rfl := Option.some.inj (hw'.symm.trans (hrun.next k))
    cases hbusy : (ws k).phase.busy with
    | false => exact ⟨k, le_refl k, hbusy⟩
    | true => exact ⟨k + 1, Nat.le_succ k, hidle hbusy⟩
  use ws, fun k => spin (ws k)
  constructor
  case run => apply hrun
  case returns => apply hreturns
  case clock =>
    intro b
    obtain ⟨k, t0, hk⟩ := endless_reaches hrun hphase hreturns b.toNat
    obtain rfl : t0 = 0 := by
      have h := hspin k
      rw [hk] at h
      apply h
    use k, 0, b.toNat, b, hk
    constructor
    · rw [spin, hk, WorkerEvent.reading, UInt64.ofNat_toNat]
    · rw [UInt64.sub_zero]

/-- The argument parser takes as NaN exactly the word, in any case, after spaces and a sign and
with or without a sequence in parentheses behind it. -/
theorem argDouble_eq_nan_iff {v : Bytes} :
  argDouble v = some .nan
    ↔ ∃ rest, matchWord (ascii "NAN") (takeSign (v.dropWhile isspace)).2 = some rest ∧
      skipParens rest = []
  := by
  constructor
  · intro h
    rw [argDouble] at h
    split_ifs at h with hbad
    obtain ⟨rest, hrest⟩ := exists_matchWord_of_nan (Option.some.inj h)
    use rest, hrest
    rw [strtod_nan hrest] at hbad
    simp only [ne_eq, not_or, not_not] at hbad
    apply hbad.2.1
  · rintro ⟨rest, hrest, hend⟩
    have hne : v ≠ [] := by
      rintro rfl
      cases hrest
    rw [argDouble, strtod_nan hrest, hend]
    simp [hne.symm]

/-! ## The time bound of a run -/

/-- The time bound that the command line and the config file give. -/
def givenSecs (args : List Bytes) (conf : Option CfgFile) : Option Binary64 :=
  match lastValue .secs (mainOpts args) with
  | some v => argDouble v
  | none => some (fileSecs conf)

/-- The time bound of a run is the one that is given. -/
theorem givenSecs_eq {env : Environment} {args : List Bytes} {conf : Option CfgFile} {run : Run}
    (hconf : firstPass env (fileOpts args) = .ok conf) (hrun : main env args = .ok run) :
  givenSecs args conf = some run.cfg.secs
  := by
  obtain ⟨conf', st, hconf', hst, hstart⟩ := main_ok_iff.mp hrun
  rw [hconf] at hconf'
  obtain rfl := Except.ok.inj hconf'
  obtain ⟨engines, -, -, -, rfl⟩ := startRun_ok_iff.mp hstart
  have hbound : (boundCfg st.cfg).secs = st.cfg.secs := by rw [boundCfg_eq]
  change givenSecs args conf = some (boundCfg st.cfg).secs
  rw [hbound, givenSecs]
  cases hsecs : lastValue .secs (mainOpts args) with
  | none => rw [secs_eq hst hsecs]
  | some v => simpa [getKnob, readKnob] using (knobs_of_flags hst hsecs).symm

/-- The workers of every run that `main` starts end, on any number of threads, when their workload
opens, each call of `run` comes back and the clock goes on, exactly when the time bound that the
command line or else the config file gives is not NaN. -/
theorem workersEnd_iff {env : Environment} {args : List Bytes} {conf : Option CfgFile} {run : Run}
    (toUInt64 : Binary64 → UInt64) (hconf : firstPass env (fileOpts args) = .ok conf)
    (hrun : main env args = .ok run) :
  WorkersEnd toUInt64 run.cfg ↔ givenSecs args conf ≠ some .nan
  := by
  rw [givenSecs_eq hconf hrun, ne_eq, Option.some.injEq]
  constructor
  · intro hend hsecs
    obtain ⟨ws, es, hgoes⟩ := exists_goesOn toUInt64 hsecs
      (w := timedWorkers run.cfg (nthreads 1) ⟨0, nthreads_pos 1⟩) rfl
    apply hend 1 ⟨0, nthreads_pos 1⟩ ws es hgoes
  · intro hsecs threads t ws es
    apply not_goesOn hsecs rfl

/-- A command line with a time bound. -/
def secsArgs (secs : Bytes) : List Bytes := [ascii "--secs", secs, ascii "w.lua"]

/-- A run of two seconds. -/
theorem workersEnd_iff_example :
  ∃ run, main (fileEnv []) (secsArgs (ascii "2")) = .ok run ∧
    WorkersEnd (fun _ => 2 * 10 ^ 9) run.cfg
  := by
  have hok : (main (fileEnv []) (secsArgs (ascii "2"))).isOk = true := by
    decide +kernel
  have hconf : firstPass (fileEnv []) (fileOpts (secsArgs (ascii "2"))) = .ok none := by
    decide +kernel
  have hsecs : givenSecs (secsArgs (ascii "2")) none ≠ some .nan := by
    decide +kernel
  cases hrun : main (fileEnv []) (secsArgs (ascii "2")) with
  | error e => simp [hrun, Except.isOk, Except.toBool] at hok
  | ok run =>
    use run, rfl
    apply (workersEnd_iff _ hconf hrun).mpr hsecs

/-- The argument parser accepts a time bound that is not a number, and a worker can go on for
ever. -/
theorem workersEnd_not :
  ¬ ∀ (toUInt64 : Binary64 → UInt64) (env : Environment) (args : List Bytes) (run : Run),
    main env args = .ok run → WorkersEnd toUInt64 run.cfg
  := by
  intro h
  have hsecs : (main (fileEnv []) (secsArgs (ascii "nan"))).map (fun run => run.cfg.secs)
      = .ok .nan := by
    decide +kernel
  cases hrun : main (fileEnv []) (secsArgs (ascii "nan")) with
  | error e => simp [hrun, Except.map] at hsecs
  | ok run =>
    rw [hrun] at hsecs
    obtain ⟨ws, es, hgoes⟩ := exists_goesOn (fun _ => 0) (Except.ok.inj hsecs)
      (w := timedWorkers run.cfg (nthreads 1) ⟨0, nthreads_pos 1⟩) rfl
    apply h (fun _ => 0) _ _ run hrun 1 ⟨0, nthreads_pos 1⟩ ws es hgoes

end Keybench
