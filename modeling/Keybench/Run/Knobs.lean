import Keybench.Run.Bench

/-!
# The knobs of a replay

A replay file keeps some of the knobs of a run (`KeepsKnobs`).  The knobs that are not written (the
timeline, the probes, the plot) come back with their defaults, or with what a section gives that is
taken for the bench section.  The knobs of a run that is started with a config file are those that
its bench section gives (`sectionKnobs`).
-/

namespace Keybench

/-! ## The knobs of a run -/

/-- What bounds a run. -/
inductive Bound
  | time (secs : Binary64)
  | count (ops : ℤ)
  | unbounded
deriving DecidableEq

/-- Where a run reports to. -/
inductive ReportTo
  | dir (base : Bytes)
  | spec (s : Option Bytes)
deriving DecidableEq

/-- The effective values of the knobs of a run. -/
structure Knobs where
  engines : List Backend
  threads : List Int32
  seedThreads : Option Int32
  seedOnce : Bool
  pin : Bool
  bound : Bound
  users : ℤ
  items : ℤ
  seed : UInt32
  repeats : Int32
  dataDir : Option Bytes
  report : ReportTo
  timeline : Option Binary64
  probes : List Bytes
  autoPlot : Bool
  workloads : List Bytes
deriving DecidableEq

/-- A time or interval that is in effect. -/
def inEffect (x : Binary64) : Option Binary64 := if x.Positive then some x else none

/-- The bound of a time and a count.  A time that is not a number is neither positive nor not, and
the loop of `worker_main` then ends at neither test. -/
def boundOf (secs : Binary64) (ops : ℤ) : Bound :=
  if secs.Positive then .time secs else if secs.NonPositive then .count ops else .unbounded

/-- The seed threads that are in effect; the run threads seed when there are none. -/
def seedThreadsInEffect (n : Int32) : Option Int32 := if 0 < n then some n else none

/-- The knobs of a run. -/
def Run.knobs (run : Run) : Knobs :=
  { engines := run.engines
    threads := run.threads
    seedThreads := seedThreadsInEffect run.cfg.seedThreads
    seedOnce := run.cfg.seedOnce ≠ 0
    pin := run.cfg.pin ≠ 0
    bound := boundOf run.cfg.secs run.cfg.ops
    users := run.cfg.users
    items := run.cfg.items
    seed := run.cfg.seed
    repeats := run.repeats
    dataDir := run.cfg.dataDir.filter (fun dir => dir ≠ [])
    report := (run.reportDir.map .dir).getD (.spec run.report)
    timeline := inEffect run.cfg.timeline
    probes := run.probes
    autoPlot := run.autoPlot
    workloads := run.workloads }

/-- No other section is read into the bench section when no section name ends with a space. -/
theorem aliasEntries_eq_nil {conf : Option CfgFile}
    (h : ∀ o ∈ conf.getD [], ∀ c ∈ o.name.getLast?, isspace c = false) :
  aliasEntries conf = []
  := by
  have hnone : (otherSections (conf.getD [])).filter (fun o => nameRead o = benchName) = [] := by
    apply List.filter_eq_nil_iff.mpr
    intro o ho
    have hread := (nameRead_eq_iff o).mpr (h o (List.mem_of_mem_filter ho))
    have hother := List.of_mem_filter ho
    rw [decide_eq_true_eq] at hother ⊢
    rw [hread]
    exact hother
  rw [aliasEntries, hnone, List.flatMap_nil]

end Keybench
