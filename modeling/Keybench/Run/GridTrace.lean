import Keybench.Lib.Blocks
import Keybench.Run.Grid

/-!
# The traces of the grid

What each part of `runFile` does to the trace, as a grammar: the events of a setup, of a repeat, of
the repeats of a cell, of a cell, of a group of cells on one store, of an engine.  The trace of a
run is made of the events of its engines (`runFile_events`).
-/

namespace Keybench

/-! ## The grammar -/

/-- The row of an event. -/
def GridEvent.row {H : Type} : GridEvent H → Option SummaryRow
  | .summarized _ row _ => some row
  | _ => none

section Grammar

variable {H : Type}

/-- The events of `measure_setup`, and the store it gives. -/
inductive SetupEvents (cfg : PointConfig) : List (GridEvent H) → Option H → Prop where
  /-- The engine is not known. -/
  | unknown : SetupEvents cfg [] none
  /-- The workload cannot be opened. -/
  | noScript (h : H) : SetupEvents cfg [.opened h cfg, .script h false, .closed h] none
  /-- The workload has no `load`. -/
  | noLoad (h : H) : SetupEvents cfg [.opened h cfg, .script h true] (some h)
  /-- A thread that seeds the store fails. -/
  | loadFailed (h : H) (n : ℕ) :
    SetupEvents cfg [.opened h cfg, .script h true, .seeded h n false, .closed h] none
  /-- All threads seed the store. -/
  | loaded (h : H) (n : ℕ) :
    SetupEvents cfg [.opened h cfg, .script h true, .seeded h n true] (some h)

/-- The events of a repeat of a cell that has a store of its own, and its result. -/
inductive FreshRepeat (cfg : PointConfig) (c : Cell) (r : ℕ) :
    List (GridEvent H) → PointResult → Prop where
  /-- No store could be seeded. -/
  | refused {es : List (GridEvent H)} {R : PointResult} (hsetup : SetupEvents cfg es none)
    (hok : R.ok = false) : FreshRepeat cfg c r (es ++ [.measured c r R]) R
  /-- The timed phase is run. -/
  | ran {es : List (GridEvent H)} {h : H} {R : PointResult} (hsetup : SetupEvents cfg es (some h)) :
    FreshRepeat cfg c r (es ++ [.timed h cfg, .measured c r R, .closed h]) R

/-- The events of a repeat of a cell on a store that is shared, and its result. -/
inductive SharedRepeat (h : H) (cfg : PointConfig) (c : Cell) (r : ℕ) :
    List (GridEvent H) → PointResult → Prop where
  | ran {R : PointResult} : SharedRepeat h cfg c r [.timed h cfg, .measured c r R] R

/-- The events and the results of at most `n` repeats from `r` on, which end at the first that is
not all right. -/
inductive Repeats (Rep : ℕ → List (GridEvent H) → PointResult → Prop) :
    ℕ → ℕ → List (GridEvent H) → List PointResult → Prop where
  | done {r : ℕ} : Repeats Rep 0 r [] []
  | failed {n r : ℕ} {es : List (GridEvent H)} {R : PointResult} (hrep : Rep r es R)
    (hok : R.ok = false) : Repeats Rep (n + 1) r es [R]
  | more {n r : ℕ} {es fs : List (GridEvent H)} {R : PointResult} {Rs : List PointResult}
    (hrep : Rep r es R) (hok : R.ok = true) (hrest : Repeats Rep n (r + 1) fs Rs) :
    Repeats Rep (n + 1) r (es ++ fs) (R :: Rs)

/-- The summary of a cell with some results. -/
def summaryEvent (job : GridJob) (c : Cell) (name : Bytes) (Rs : List PointResult) : GridEvent H :=
  .summarized c
    (summarizePoint name Rs (job.cellConfig c).threads (job.cellConfig c).sweepParam
      (job.cellConfig c).sweepValue).1
    (summarizePoint name Rs (job.cellConfig c).threads (job.cellConfig c).sweepParam
      (job.cellConfig c).sweepValue).2

/-- The events of a cell. -/
inductive CellEvents (job : GridJob)
    (Rep : PointConfig → Cell → ℕ → List (GridEvent H) → PointResult → Prop) (c : Cell) :
    List (GridEvent H) → Prop where
  /-- All repeats are all right, and the cell is summarised. -/
  | summarized {es : List (GridEvent H)} {Rs : List PointResult} (name : Bytes)
    (hreps : Repeats (Rep (job.cellConfig c) c) job.repeats 0 es Rs) (hok : ∀ R ∈ Rs, R.ok = true) :
    CellEvents job Rep c (es ++ [summaryEvent job c name Rs])
  /-- A repeat is not all right. -/
  | failed {es : List (GridEvent H)} {Rs : List PointResult}
    (hreps : Repeats (Rep (job.cellConfig c) c) job.repeats 0 es Rs)
    (hok : ∃ R ∈ Rs, R.ok = false) : CellEvents job Rep c es

/-- The events of some cells on a store that is seeded for them. -/
inductive GroupEvents (job : GridJob) (cfg : PointConfig) (g : SeedGroup) (cells : List Cell) :
    List (GridEvent H) → Prop where
  /-- No store could be seeded. -/
  | refused {es : List (GridEvent H)} (hsetup : SetupEvents cfg es none) :
    GroupEvents job cfg g cells (es ++ [.setup g false])
  /-- The cells are run on the store. -/
  | ran {es : List (GridEvent H)} {h : H} {blocks : List (List (GridEvent H))}
    (hsetup : SetupEvents cfg es (some h))
    (hcells : List.Forall₂ (CellEvents job (SharedRepeat h)) cells blocks) :
    GroupEvents job cfg g cells (es ++ .setup g true :: (blocks.flatten ++ [.closed h]))

/-- The events of an engine. -/
inductive EngineEvents (job : GridJob) (ei : ℕ) : List (GridEvent H) → Prop where
  | perEngine {es : List (GridEvent H)} (hmode : job.mode = .perEngine)
    (hgroup : GroupEvents job (job.engineConfig ei job.tmax 0) ⟨ei, none⟩
      ((List.range job.nsteps).flatMap fun si =>
        (List.range job.threads.length).map fun ti => ⟨ei, ti, si⟩) es) :
    EngineEvents job ei es
  | perValue {blocks : List (List (GridEvent H))} (hmode : job.mode = .perValue)
    (hgroups : List.Forall₂ (fun si => GroupEvents job (job.engineConfig ei job.tmax si)
      ⟨ei, some si⟩ ((List.range job.threads.length).map fun ti => ⟨ei, ti, si⟩))
      (List.range job.nsteps) blocks) :
    EngineEvents job ei blocks.flatten
  | fresh {blocks : List (List (GridEvent H))} (hmode : job.mode = .fresh)
    (hcells : List.Forall₂ (CellEvents job FreshRepeat)
      ((List.range job.threads.length).flatMap fun ti =>
        (List.range job.nsteps).map fun si => ⟨ei, ti, si⟩) blocks) :
    EngineEvents job ei blocks.flatten

end Grammar

/-! ## What the parts do -/

section Parts

variable {W H : Type}

/-- A state goes on from another by some events, and the rows are those of the events. -/
structure Adds (st st' : GridState W H) (es : List (GridEvent H)) : Prop where
  trace : st'.trace = st.trace ++ es
  rows : st'.rows = st.rows ++ es.filterMap GridEvent.row

namespace Adds

variable {st st₁ st₂ : GridState W H} {es fs : List (GridEvent H)}

theorem refl (st : GridState W H) :
  Adds st st []
  := ⟨(List.append_nil _).symm, (List.append_nil _).symm⟩

theorem trans (h₁ : Adds st st₁ es) (h₂ : Adds st₁ st₂ fs) :
  Adds st st₂ (es ++ fs)
  := by
  constructor
  · rw [h₂.trace, h₁.trace, List.append_assoc]
  · rw [h₂.rows, h₁.rows, List.append_assoc, List.filterMap_append]

/-- Some events without a row. -/
theorem of_trace (htrace : st₁.trace = st.trace ++ es) (hrows : st₁.rows = st.rows)
    (hes : es.filterMap GridEvent.row = []) :
  Adds st st₁ es
  := ⟨htrace, by rw [hes, List.append_nil, hrows]⟩

end Adds

variable (env : GridEnv W H)

/-- `measure_setup` adds its events, and leaves the results alone. -/
theorem measureSetup_events (cfg : PointConfig) (st : GridState W H) :
  ∃ es, SetupEvents cfg es (measureSetup env cfg st).1.store ∧
    Adds st (measureSetup env cfg st).2 es ∧
    (measureSetup env cfg st).2.results = st.results
  := by
  rcases hopen : env.storeOpen st.world cfg with ⟨h, w₁⟩
  rcases hscript : env.openWorkload w₁ h cfg with ⟨script, w₂⟩
  rcases hseed : env.seed w₂ h cfg (seedThreads cfg) with ⟨errs, w₃⟩
  cases hfind : env.backendFind cfg.backend with
  | false =>
    simp only [measureSetup, hfind]
    exact ⟨[], .unknown, .refl st, rfl⟩
  | true =>
    cases script with
    | none =>
      simp only [measureSetup, hfind, hopen, GridState.log, hscript, closeStore]
      exact ⟨_, .noScript h, .of_trace (by simp) rfl rfl, rfl⟩
    | some found =>
      obtain ⟨name, hasLoad⟩ := found
      cases hasLoad with
      | false =>
        simp only [measureSetup, hfind, hopen, GridState.log, hscript]
        exact ⟨_, .noLoad h, .of_trace (by simp) rfl rfl, rfl⟩
      | true =>
        cases herrs : errs.any id with
        | true =>
          simp only [measureSetup, hfind, hopen, GridState.log, hscript, seedStore, hseed, herrs,
            closeStore]
          exact ⟨_, .loadFailed h (seedThreads cfg), .of_trace (by simp) rfl rfl, rfl⟩
        | false =>
          simp only [measureSetup, hfind, hopen, GridState.log, hscript, seedStore, hseed, herrs]
          exact ⟨_, .loaded h (seedThreads cfg), .of_trace (by simp) rfl rfl, rfl⟩

/-- A way to make the repeats of a cell adds the events of a repeat and writes its result. -/
def MakesRepeat (measure : ℕ → GridState W H → GridState W H)
    (Rep : ℕ → List (GridEvent H) → PointResult → Prop) : Prop :=
  ∀ r st, ∃ es R, Rep r es R ∧ Adds st (measure r st) es ∧
    (measure r st).results = Function.update st.results r R

/-- `measure_timed` makes the repeats on a store that is shared. -/
theorem measureTimedOn_makes (cfg : PointConfig) (h : H) (engine : Option Bytes) (c : Cell) :
  MakesRepeat (measureTimedOn env cfg h engine c) (SharedRepeat h cfg c)
  := by
  intro r st
  rcases htimed : env.timed st.world h cfg with ⟨ws, wall, w⟩
  simp only [measureTimedOn, htimed, GridState.log, GridState.write]
  exact ⟨_, _, .ran, .of_trace (by simp) rfl rfl, rfl⟩

/-- `run_measurement` makes the repeats that have a store of their own. -/
theorem runMeasurement_makes (cfg : PointConfig) (c : Cell) :
  MakesRepeat (runMeasurement env cfg c) (FreshRepeat cfg c)
  := by
  intro r st
  obtain ⟨es, hsetup, hadds, hresults⟩ := measureSetup_events env cfg st
  rcases hout : measureSetup env cfg st with ⟨⟨store, name, engine⟩, st₁⟩
  rw [hout] at hsetup hadds hresults
  cases store with
  | none =>
    simp only [runMeasurement, hout]
    refine ⟨_, noResult engine, .refused hsetup rfl, hadds.trans (.of_trace rfl rfl rfl), ?_⟩
    rw [← hresults]
    rfl
  | some h =>
    have hname : Adds st { st₁ with name := name.getD unnamed } es := ⟨hadds.trace, hadds.rows⟩
    obtain ⟨fs, R, hran, hmeasured, hwritten⟩ :=
      measureTimedOn_makes env cfg h engine c r { st₁ with name := name.getD unnamed }
    cases hran
    simp only [runMeasurement, hout]
    refine ⟨_, R, .ran hsetup, (hname.trans (hmeasured.trans (.of_trace rfl rfl rfl))), ?_⟩
    rw [← hresults]
    apply hwritten

/-- The loop over the repeats adds the events of repeats.  When it says that all are all right, the
results are those of its repeats, and it leaves the earlier results alone. -/
theorem repeatLoop_events {measure : ℕ → GridState W H → GridState W H}
    {Rep : ℕ → List (GridEvent H) → PointResult → Prop} (hmakes : MakesRepeat measure Rep)
    (n r : ℕ) (st : GridState W H) :
  ∃ es Rs, Repeats Rep n r es Rs ∧ Adds st (repeatLoop measure n r st).2 es ∧
    ((repeatLoop measure n r st).1 = true → (∀ R ∈ Rs, R.ok = true) ∧
      (List.range' r n).map (repeatLoop measure n r st).2.results = Rs) ∧
    ((repeatLoop measure n r st).1 = false → ∃ R ∈ Rs, R.ok = false) ∧
    ∀ j < r, (repeatLoop measure n r st).2.results j = st.results j
  := by
  induction n generalizing r st with
  | zero =>
    refine ⟨[], [], .done, .refl st, ?_, ?_, ?_⟩
    · intro _
      simp
    · rintro ⟨⟩
    · exact fun _ _ => rfl
  | succ n ih =>
    obtain ⟨es, R, hrep, hadds, hresults⟩ := hmakes r st
    have hR : (measure r st).results r = R := by rw [hresults, Function.update_self]
    cases hok : R.ok with
    | false =>
      have hloop : repeatLoop measure (n + 1) r st = (false, measure r st) := by
        simp only [repeatLoop, hR, hok, Bool.false_eq_true, if_false]
      rw [hloop]
      refine ⟨es, [R], .failed hrep hok, hadds, ?_, ?_, ?_⟩
      · rintro ⟨⟩
      · intro _
        exact ⟨R, List.mem_singleton_self R, hok⟩
      · intro j hj
        rw [hresults, Function.update_of_ne hj.ne]
    | true =>
      have hloop : repeatLoop measure (n + 1) r st = repeatLoop measure n (r + 1) (measure r st) := by
        simp only [repeatLoop, hR, hok, if_true]
      obtain ⟨fs, Rs, hrest, hadds', htrue, hfalse, hbefore⟩ := ih (r + 1) (measure r st)
      rw [hloop]
      refine ⟨es ++ fs, R :: Rs, .more hrep hok hrest, hadds.trans hadds', ?_, ?_, ?_⟩
      · intro h
        obtain ⟨hall, hRs⟩ := htrue h
        constructor
        · exact List.forall_mem_cons.mpr ⟨hok, hall⟩
        · rw [List.range'_succ, List.map_cons, hRs, hbefore r (Nat.lt_succ_self r), hR]
      · intro h
        obtain ⟨R', hmem, hbad⟩ := hfalse h
        exact ⟨R', List.mem_cons_of_mem R hmem, hbad⟩
      · intro j hj
        rw [hbefore j (Nat.lt_succ_of_lt hj), hresults, Function.update_of_ne hj.ne]

/-- The events of a loop are those of its bodies. -/
theorem foldl_adds {α : Type} {P : α → List (GridEvent H) → Prop}
    {f : GridState W H → α → GridState W H} (hf : ∀ st x, ∃ es, P x es ∧ Adds st (f st x) es)
    (xs : List α) (st : GridState W H) :
  ∃ blocks, List.Forall₂ P xs blocks ∧ Adds st (xs.foldl f st) blocks.flatten
  := by
  induction xs generalizing st with
  | nil => exact ⟨[], .nil, .refl st⟩
  | cons x xs ih =>
    obtain ⟨es, hP, hadds⟩ := hf st x
    obtain ⟨blocks, hblocks, hadds'⟩ := ih (f st x)
    exact ⟨es :: blocks, .cons hP hblocks, hadds.trans hadds'⟩

variable (job : GridJob)

/-- A cell adds its events. -/
theorem runCell_events {measure : Cell → ℕ → GridState W H → GridState W H}
    {Rep : PointConfig → Cell → ℕ → List (GridEvent H) → PointResult → Prop}
    (hmakes : ∀ c, MakesRepeat (measure c) (Rep (job.cellConfig c) c)) (st : GridState W H)
    (c : Cell) :
  ∃ es, CellEvents job Rep c es ∧ Adds st (runCell job measure st c) es
  := by
  obtain ⟨es, Rs, hreps, hadds, htrue, hfalse, -⟩ := repeatLoop_events (hmakes c) job.repeats 0 st
  rcases hloop : repeatLoop (measure c) job.repeats 0 st with ⟨ok, st₁⟩
  rw [hloop] at hadds htrue hfalse
  cases ok with
  | false =>
    simp only [runCell, hloop, Bool.false_eq_true, if_false]
    exact ⟨es, .failed hreps (hfalse rfl), hadds⟩
  | true =>
    obtain ⟨hall, hRs⟩ := htrue rfl
    rw [← List.range_eq_range'] at hRs
    simp only [runCell, hloop, if_true, hRs]
    exact ⟨_, .summarized st₁.name hreps hall, hadds.trans ⟨rfl, rfl⟩⟩

/-- Some cells on a store that is seeded for them add their events. -/
theorem runSeeded_events (cfg : PointConfig) (g : SeedGroup) (cells : List Cell)
    (st : GridState W H) :
  ∃ es, GroupEvents job cfg g cells es ∧ Adds st (runSeeded env job cfg g cells st) es
  := by
  obtain ⟨es, hsetup, hadds, -⟩ := measureSetup_events env cfg st
  rcases hout : measureSetup env cfg st with ⟨⟨store, name, engine⟩, st₁⟩
  rw [hout] at hsetup hadds
  cases store with
  | none =>
    simp only [runSeeded, hout]
    exact ⟨_, .refused hsetup, hadds.trans (.of_trace rfl rfl rfl)⟩
  | some h =>
    simp only [runSeeded, hout]
    obtain ⟨blocks, hcells, hblocks⟩ := foldl_adds
      (runCell_events job fun c => measureTimedOn_makes env (job.cellConfig c) h engine c) cells
      { st₁ with name := name.getD st₁.name, trace := st₁.trace ++ [.setup g true] }
    have hmark : Adds st₁
        { st₁ with
          name := name.getD st₁.name
          trace := st₁.trace ++ [.setup g true] } [.setup g true] := .of_trace rfl rfl rfl
    exact ⟨_, .ran hsetup hcells,
      hadds.trans (hmark.trans (hblocks.trans (.of_trace rfl rfl rfl)))⟩

/-- An engine adds its events. -/
theorem runEngine_events (st : GridState W H) (ei : ℕ) :
  ∃ es, EngineEvents job ei es ∧ Adds st (runEngine env job st ei) es
  := by
  cases hmode : job.mode with
  | perEngine =>
    simp only [runEngine, hmode]
    obtain ⟨es, hgroup, hadds⟩ := runSeeded_events env job (job.engineConfig ei job.tmax 0) ⟨ei, none⟩
      ((List.range job.nsteps).flatMap fun si =>
        (List.range job.threads.length).map fun ti => ⟨ei, ti, si⟩) st
    exact ⟨es, .perEngine hmode hgroup, hadds⟩
  | perValue =>
    simp only [runEngine, hmode]
    obtain ⟨blocks, hgroups, hadds⟩ := foldl_adds
      (fun st si => runSeeded_events env job (job.engineConfig ei job.tmax si) ⟨ei, some si⟩
        ((List.range job.threads.length).map fun ti => ⟨ei, ti, si⟩) st) (List.range job.nsteps) st
    exact ⟨_, .perValue hmode hgroups, hadds⟩
  | fresh =>
    simp only [runEngine, hmode, runFresh]
    obtain ⟨blocks, hcells, hadds⟩ := foldl_adds
      (runCell_events job fun c => runMeasurement_makes env (job.cellConfig c) c)
      ((List.range job.threads.length).flatMap fun ti =>
        (List.range job.nsteps).map fun si => ⟨ei, ti, si⟩) st
    exact ⟨_, .fresh hmode hcells, hadds⟩

/-- The trace of a run is made of the events of its engines, and its rows are those of the trace. -/
theorem runFile_events (w : W) (results : ℕ → PointResult) :
  ∃ blocks, List.Forall₂ (EngineEvents job) (List.range job.engines.length) blocks ∧
    (runFile env job w results).trace = blocks.flatten ∧
    (runFile env job w results).rows = blocks.flatten.filterMap GridEvent.row
  := by
  obtain ⟨blocks, hengines, hadds⟩ := foldl_adds (runEngine_events env job)
    (List.range job.engines.length)
    { world := w, trace := [], results, name := unnamed, rows := [] }
  exact ⟨blocks, hengines, hadds.trace, hadds.rows⟩

end Parts

end Keybench
