import Keybench.Run.Summary

/-!
# The grid of a workload file

`runFile` runs a workload file on every cell of a grid: an engine, a thread count and, when the
workload sweeps a parameter of its own, a swept value.  Without `seed_once` each repeat of a cell
opens and seeds a store of its own.  With it a store is seeded once for each swept value of an
engine, or once for the engine when the swept value does not change the seeded data.

What the outside does (stores, scripts, threads and the clock) is a `GridEnv`, which may answer
anything.  A run leaves a trace of events.
-/

namespace Keybench

/-! ## Grids -/

/-- A `config` of `run_file`, with the fields that it sets. -/
structure PointConfig extends RunConfig where
  /-- `threads`. -/
  threads : Int32
  /-- `sweep_param`. -/
  sweepParam : Option Bytes
  /-- `sweep_value`. -/
  sweepValue : ℤ

/-- What `read_workload_sweep` finds in a workload. -/
structure WorkloadSweep where
  /-- `sparam`. -/
  param : Bytes
  /-- `svals`. -/
  values : List ℤ
  /-- `seed_per_value`. -/
  seedPerValue : Bool

/-- The arguments of `run_file`, with the sweep of the workload. -/
structure GridJob where
  /-- `base`. -/
  base : RunConfig
  /-- `engines`. -/
  engines : List Bytes
  /-- `tlist`. -/
  threads : List Int32
  /-- `repeat`. -/
  repeats : ℕ
  /-- The sweep of the workload. -/
  sweep : WorkloadSweep

/-- A cell of the grid: positions in the lists of engines, thread counts and swept values. -/
structure Cell where
  /-- `ei`. -/
  ei : ℕ
  /-- `ti`. -/
  ti : ℕ
  /-- `si`. -/
  si : ℕ
deriving DecidableEq

/-- What a store is seeded for: an engine, or one swept value of an engine. -/
structure SeedGroup where
  /-- `ei`. -/
  ei : ℕ
  /-- `si`, in the loop over the swept values. -/
  si : Option ℕ
deriving DecidableEq

/-- The three modes of `run_file`. -/
inductive SeedMode where
  /-- Each repeat seeds a store. -/
  | fresh
  /-- Each swept value of an engine seeds a store. -/
  | perValue
  /-- Each engine seeds a store. -/
  | perEngine
deriving DecidableEq

namespace GridJob

variable (job : GridJob)

/-- `sweep_param`. -/
def sweepParam : Option Bytes := if job.sweep.values = [] then none else some job.sweep.param

/-- `nsteps`. -/
def nsteps : ℕ := if job.sweep.values = [] then 1 else job.sweep.values.length

/-- `npoints`. -/
def npoints : ℕ := job.engines.length * job.threads.length * job.nsteps

/-- The swept value of a step. -/
def sweepValue (si : ℕ) : ℤ := job.sweep.values.getD si 0

/-- `tmax`. -/
def tmax : Int32 :=
  job.threads.tail.foldl (fun m t => if t > m then t else m) (job.threads.headD 1)

/-- The mode of the run. -/
def mode : SeedMode :=
  if job.base.seedOnce ≠ 0 ∧ job.sweepParam.isSome ∧ job.sweep.seedPerValue = false then .perEngine
  else if job.base.seedOnce ≠ 0 then .perValue
  else .fresh

/-- The configuration of an engine. -/
def engineConfig (ei : ℕ) (threads : Int32) (si : ℕ) : PointConfig :=
  { job.base with
    backend := job.engines[ei]?
    threads := threads
    sweepParam := job.sweepParam
    sweepValue := job.sweepValue si }

/-- `pc`, the configuration of a cell. -/
def cellConfig (c : Cell) : PointConfig :=
  job.engineConfig c.ei (job.threads.getD c.ti 1) c.si

end GridJob

/-! ## Events -/

/-- What happens in a run. -/
inductive GridEvent (H : Type) where
  /-- `store_open` gives a store. -/
  | opened (h : H) (cfg : PointConfig)
  /-- The workload is opened on a store, and this has succeeded or not. -/
  | script (h : H) (ok : Bool)
  /-- A number of threads have seeded a store, and all have succeeded or not. -/
  | seeded (h : H) (threads : ℕ) (ok : Bool)
  /-- A timed phase runs on a store. -/
  | timed (h : H) (cfg : PointConfig)
  /-- `store_close`. -/
  | closed (h : H)
  /-- `measure_setup` has given a store to a group of cells or not. -/
  | setup (g : SeedGroup) (ok : Bool)
  /-- The result of a repeat of a cell is written. -/
  | measured (c : Cell) (r : ℕ) (result : PointResult)
  /-- A cell is summarised. -/
  | summarized (c : Cell) (row : SummaryRow) (rp : ReportPoint)

/-- What `run_file` calls. -/
structure GridEnv (W H : Type) where
  /-- Whether `backend_find` finds an engine. -/
  backendFind : Option Bytes → Bool
  /-- `store_open`. -/
  storeOpen : W → PointConfig → H × W
  /-- `store_version`. -/
  storeVersion : H → Bytes
  /-- `open_workload` on a store: its name, when that is a string, and whether it has `load`. -/
  openWorkload : W → H → PointConfig → Option (Option Bytes × Bool) × W
  /-- The threads that seed a store, and whether each of them has failed. -/
  seed : W → H → PointConfig → ℕ → List Bool × W
  /-- The workers of a timed phase when they have ended, and how long it took. -/
  timed : W → H → PointConfig → List TimedWorker × ℚ × W
  /-- `store_close`. -/
  storeClose : W → H → W

/-- The variables of `run_file`. -/
structure GridState (W H : Type) where
  /-- The outside. -/
  world : W
  /-- The events so far. -/
  trace : List (GridEvent H)
  /-- `Rs`. -/
  results : ℕ → PointResult
  /-- `name`. -/
  name : Bytes
  /-- The first `nrows` of `rows`. -/
  rows : List SummaryRow

section Model

variable {W H : Type}

/-- The outside goes on, and some events happen. -/
def GridState.log (st : GridState W H) (w : W) (es : List (GridEvent H)) : GridState W H :=
  { st with world := w, trace := st.trace ++ es }

/-- A result is written. -/
def GridState.write (st : GridState W H) (c : Cell) (r : ℕ) (result : PointResult) :
    GridState W H :=
  { st with
    results := Function.update st.results r result
    trace := st.trace ++ [.measured c r result] }

/-! ## Measuring -/

/-- What `measure_setup` gives: the store, and what it writes to `name_out` and `engine_out`. -/
structure Setup (H : Type) where
  /-- The store. -/
  store : Option H
  /-- `name_out`. -/
  name : Option Bytes
  /-- `engine_out`. -/
  engine : Option Bytes

/-- The threads that seed a store. -/
def seedThreads (cfg : PointConfig) : ℕ :=
  if cfg.seedThreads > 0 then cfg.seedThreads.toInt.toNat else nthreads cfg.threads

/-- The name of a workload that has not said its name. -/
def unnamed : Bytes := ascii "(unnamed)"

variable (env : GridEnv W H)

/-- `store_close`. -/
def closeStore (h : H) (st : GridState W H) : GridState W H :=
  st.log (env.storeClose st.world h) [.closed h]

/-- The end of `measure_setup`, which seeds a store. -/
def seedStore (cfg : PointConfig) (h : H) (name engine : Bytes) (st : GridState W H) :
    Setup H × GridState W H :=
  let n := seedThreads cfg
  let (errs, w) := env.seed st.world h cfg n
  if errs.any id then
    (⟨none, some name, some engine⟩, closeStore env h (st.log w [.seeded h n false]))
  else (⟨some h, some name, some engine⟩, st.log w [.seeded h n true])

/-- `measure_setup`. -/
def measureSetup (cfg : PointConfig) (st : GridState W H) : Setup H × GridState W H :=
  if env.backendFind cfg.backend then
    let (h, w) := env.storeOpen st.world cfg
    let engine := env.storeVersion h
    let st := st.log w [.opened h cfg]
    match env.openWorkload st.world h cfg with
    | (none, w) => (⟨none, none, some engine⟩, closeStore env h (st.log w [.script h false]))
    | (some (name, hasLoad), w) =>
      let name := (name.map (snprintfStr 128)).getD unnamed
      let st := st.log w [.script h true]
      if hasLoad then seedStore env cfg h name engine st
      else (⟨some h, some name, some engine⟩, st)
  else (⟨none, none, none⟩, st)

/-- `measure_timed`. -/
def measureTimedOn (cfg : PointConfig) (h : H) (engine : Option Bytes) (c : Cell) (r : ℕ)
    (st : GridState W H) : GridState W H :=
  let (ws, wall, w) := env.timed st.world h cfg
  (st.log w [.timed h cfg]).write c r (measureTimed engine wall ws)

/-- The result of a repeat without a store. -/
def noResult (engine : Option Bytes) : PointResult where
  stats := statsReset
  units := 0
  wall := 0
  engine := engine
  ok := false

/-- `run_measurement`. -/
def runMeasurement (cfg : PointConfig) (c : Cell) (r : ℕ) (st : GridState W H) : GridState W H :=
  let (setup, st) := measureSetup env cfg st
  let st := { st with name := setup.name.getD unnamed }
  match setup.store with
  | none => st.write c r (noResult setup.engine)
  | some h => closeStore env h (measureTimedOn env cfg h setup.engine c r st)

/-! ## Cells -/

/-- The loop over the repeats of a cell, which ends at the first that is not all right: `n` repeats
from `r` on, each of them made by `measure`. -/
def repeatLoop (measure : ℕ → GridState W H → GridState W H) :
    ℕ → ℕ → GridState W H → Bool × GridState W H
  | 0, _, st => (true, st)
  | n + 1, r, st =>
    let st := measure r st
    if (st.results r).ok then repeatLoop measure n (r + 1) st else (false, st)

variable (job : GridJob)

/-- The body of the innermost loop over the cells. -/
def runCell (measure : Cell → ℕ → GridState W H → GridState W H) (st : GridState W H) (c : Cell) :
    GridState W H :=
  let (ok, st) := repeatLoop (measure c) job.repeats 0 st
  if ok then
    let cfg := job.cellConfig c
    let (row, rp) := summarizePoint st.name ((List.range job.repeats).map st.results) cfg.threads
      cfg.sweepParam cfg.sweepValue
    { st with rows := st.rows ++ [row], trace := st.trace ++ [.summarized c row rp] }
  else st

/-- Some cells in the default mode. -/
def runFresh (cells : List Cell) (st : GridState W H) : GridState W H :=
  cells.foldl (runCell job fun c => runMeasurement env (job.cellConfig c) c) st

/-- Some cells on a store that is seeded once for all of them. -/
def runSeeded (cfg : PointConfig) (g : SeedGroup) (cells : List Cell) (st : GridState W H) :
    GridState W H :=
  let (setup, st) := measureSetup env cfg st
  let st := { st with
    name := setup.name.getD st.name
    trace := st.trace ++ [.setup g setup.store.isSome] }
  match setup.store with
  | none => st
  | some h =>
    closeStore env h (cells.foldl
      (runCell job fun c => measureTimedOn env (job.cellConfig c) h setup.engine c) st)

/-- The body of the loop of `run_file` over the engines. -/
def runEngine (st : GridState W H) (ei : ℕ) : GridState W H :=
  match job.mode with
  | .perEngine =>
    let cells := (List.range job.nsteps).flatMap fun si =>
      (List.range job.threads.length).map fun ti => ⟨ei, ti, si⟩
    runSeeded env job (job.engineConfig ei job.tmax 0) ⟨ei, none⟩ cells st
  | .perValue =>
    (List.range job.nsteps).foldl
      (fun st si =>
        let cells := (List.range job.threads.length).map fun ti => ⟨ei, ti, si⟩
        runSeeded env job (job.engineConfig ei job.tmax si) ⟨ei, some si⟩ cells st)
      st
  | .fresh =>
    let cells := (List.range job.threads.length).flatMap fun ti =>
      (List.range job.nsteps).map fun si => ⟨ei, ti, si⟩
    runFresh env job cells st

/-- `run_file`, up to the summary of the rows.  `results` is what `Rs` holds at the start. -/
def runFile (w : W) (results : ℕ → PointResult) : GridState W H :=
  (List.range job.engines.length).foldl (runEngine env job)
    { world := w, trace := [], results, name := unnamed, rows := [] }

end Model

end Keybench
