import Keybench.Run.GridTrace

/-!
# The cells of the grid

In every mode and with every pattern of failures, a cell of the grid is summarised at most once,
and it is when its store has been seeded and its repeats have succeeded; the summary is that of the
results of its own repeats (`runFile_cells`).
-/

namespace Keybench

/-! ## Cells and groups -/

namespace GridJob

variable (job : GridJob)

/-- The cells of the grid. -/
def cells : List Cell :=
  (List.range job.engines.length).flatMap fun ei =>
    (List.range job.threads.length).flatMap fun ti =>
      (List.range job.nsteps).map fun si => ⟨ei, ti, si⟩

/-- The group of a cell when a store is shared. -/
def group (c : Cell) : SeedGroup :=
  if job.mode = .perEngine then ⟨c.ei, none⟩ else ⟨c.ei, some c.si⟩

theorem mem_cells {c : Cell} :
  c ∈ job.cells
    ↔ c.ei < job.engines.length ∧ c.ti < job.threads.length ∧ c.si < job.nsteps
  := by
  obtain ⟨ei, ti, si⟩ := c
  simp only [cells, List.mem_flatMap, List.mem_map, List.mem_range, Cell.mk.injEq]
  constructor
  · rintro ⟨_, hei, _, hti, _, hsi, rfl, rfl, rfl⟩
    exact ⟨hei, hti, hsi⟩
  · rintro ⟨hei, hti, hsi⟩
    exact ⟨ei, hei, ti, hti, si, hsi, rfl, rfl, rfl⟩

/-- There are `npoints` cells. -/
theorem length_cells :
  job.cells.length = job.npoints
  := by
  simp [cells, npoints, List.length_flatMap, Nat.mul_assoc]

end GridJob

/-- Whether a group has a cell. -/
def SeedGroup.covers (g : SeedGroup) (c : Cell) : Bool :=
  g.ei = c.ei ∧ (g.si = none ∨ g.si = some c.si)

variable {H : Type}

/-! ## The events of a cell -/

/-- Whether an event is about a cell: its results, its summary and the setup of its group. -/
def GridEvent.concerns (c : Cell) : GridEvent H → Bool
  | .setup g _ => g.covers c
  | .measured c' _ _ => c' = c
  | .summarized c' _ _ => c' = c
  | _ => false

/-- The result of a repeat of a cell. -/
def GridEvent.result (c : Cell) : GridEvent H → Option (ℕ × PointResult)
  | .measured c' r R => if c' = c then some (r, R) else none
  | _ => none

/-- The summary of a cell. -/
def GridEvent.summary (c : Cell) : GridEvent H → Option (SummaryRow × ReportPoint)
  | .summarized c' row rp => if c' = c then some (row, rp) else none
  | _ => none

/-- Whether an event is a failure of a setup or a repeat. -/
def GridEvent.isFailure : GridEvent H → Bool
  | .setup _ ok => ! ok
  | .measured _ _ R => ! R.ok
  | _ => false

/-- The results of the repeats of a cell. -/
def results (c : Cell) (trace : List (GridEvent H)) : List (ℕ × PointResult) :=
  trace.filterMap (GridEvent.result c)

/-- The summaries of a cell. -/
def summaries (c : Cell) (trace : List (GridEvent H)) : List (SummaryRow × ReportPoint) :=
  trace.filterMap (GridEvent.summary c)

/-- The store of a cell has been seeded, when it is not one of its repeats that seeds it. -/
def Seeded (job : GridJob) (trace : List (GridEvent H)) (c : Cell) : Prop :=
  job.mode = .fresh ∨ .setup (job.group c) true ∈ trace

/-- The repeats of a cell have succeeded. -/
def RepeatsOk (trace : List (GridEvent H)) (c : Cell) : Prop := ∀ R ∈ results c trace, R.2.ok = true

/-- The results of a cell that are written, from the repeat `r` on. -/
def writes (c : Cell) : ℕ → List PointResult → List (GridEvent H)
  | _, [] => []
  | r, R :: Rs => .measured c r R :: writes c (r + 1) Rs

/-- The events about a cell that is run. -/
inductive CellMarks (job : GridJob) (c : Cell) : List (GridEvent H) → Prop where
  | summarized (name : Bytes) {Rs : List PointResult} (hlen : Rs.length = job.repeats)
    (hok : ∀ R ∈ Rs, R.ok = true) : CellMarks job c (writes c 0 Rs ++ [summaryEvent job c name Rs])
  | failed {Rs : List PointResult} (hok : ∃ R ∈ Rs, R.ok = false) : CellMarks job c (writes c 0 Rs)

/-- The events about a cell of the grid. -/
inductive OwnEvents (job : GridJob) (c : Cell) : List (GridEvent H) → Prop where
  | fresh {es : List (GridEvent H)} (hmode : job.mode = .fresh) (hes : CellMarks job c es) :
    OwnEvents job c es
  | refused (hmode : job.mode ≠ .fresh) : OwnEvents job c [.setup (job.group c) false]
  | seeded {es : List (GridEvent H)} (hmode : job.mode ≠ .fresh) (hes : CellMarks job c es) :
    OwnEvents job c (.setup (job.group c) true :: es)

/-! ## What is kept of a trace for a cell -/

section Kept

variable {c : Cell}

/-- A setup is about no cell. -/
theorem SetupEvents.filter_concerns {cfg : PointConfig} {es : List (GridEvent H)} {store : Option H}
    (h : SetupEvents cfg es store) :
  es.filter (GridEvent.concerns c) = []
  := by
  cases h <;> rfl

/-- A kind of repeats writes one result of its cell. -/
def WritesOne (Rep : Cell → ℕ → List (GridEvent H) → PointResult → Prop) : Prop :=
  ∀ c c' r es R, Rep c' r es R →
    es.filter (GridEvent.concerns c) = if c' = c then [.measured c r R] else []

/-- A repeat with a store of its own writes one result. -/
theorem freshRepeat_writesOne (cfg : Cell → PointConfig) :
  WritesOne (H := H) (fun c => FreshRepeat (cfg c) c)
  := by
  intro c c' r es R h
  cases h with
  | refused hsetup hok =>
    rw [List.filter_append, hsetup.filter_concerns]
    by_cases hc : c' = c
    · simp [GridEvent.concerns, hc]
    · simp [GridEvent.concerns, hc]
  | ran hsetup =>
    rw [List.filter_append, hsetup.filter_concerns]
    by_cases hc : c' = c
    · simp [GridEvent.concerns, hc]
    · simp [GridEvent.concerns, hc]

/-- A repeat on a store that is shared writes one result. -/
theorem sharedRepeat_writesOne (h : H) (cfg : Cell → PointConfig) :
  WritesOne (fun c => SharedRepeat h (cfg c) c)
  := by
  intro c c' r es R hran
  cases hran
  by_cases hc : c' = c
  · simp [GridEvent.concerns, hc]
  · simp [GridEvent.concerns, hc]

variable {Rep : Cell → ℕ → List (GridEvent H) → PointResult → Prop} (hrep : WritesOne Rep)

include hrep

/-- The repeats of a cell write its results. -/
theorem Repeats.filter_concerns {c' : Cell} {n r : ℕ} {es : List (GridEvent H)}
    {Rs : List PointResult} (h : Repeats (Rep c') n r es Rs) :
  es.filter (GridEvent.concerns c) = if c' = c then writes c r Rs else []
  := by
  induction h with
  | done =>
    split_ifs <;> rfl
  | failed hR hok =>
    rw [hrep c c' _ _ _ hR]
    rfl
  | more hR hok hrest ih =>
    rw [List.filter_append, hrep c c' _ _ _ hR, ih]
    split_ifs <;> rfl

end Kept

/-- Repeats that are all right are all the repeats. -/
theorem Repeats.length_eq {Rep : ℕ → List (GridEvent H) → PointResult → Prop} {n r : ℕ}
    {es : List (GridEvent H)} {Rs : List PointResult} (h : Repeats Rep n r es Rs)
    (hok : ∀ R ∈ Rs, R.ok = true) :
  Rs.length = n
  := by
  induction h with
  | done => rfl
  | failed hR hbad =>
    rw [hok _ (List.mem_singleton_self _)] at hbad
    cases hbad
  | more hR _ hrest ih =>
    rw [List.length_cons, ih fun R hR => hok R (List.mem_cons_of_mem _ hR)]

section Grammar

variable {job : GridJob} {c : Cell}
  {Rep : PointConfig → Cell → ℕ → List (GridEvent H) → PointResult → Prop}
  (hrep : WritesOne fun c => Rep (job.cellConfig c) c)

include hrep

/-- The events of a cell are about it. -/
theorem CellEvents.marks {es : List (GridEvent H)} (h : CellEvents job Rep c es) :
  CellMarks job c (es.filter (GridEvent.concerns c))
  := by
  cases h with
  | @summarized es Rs name hreps hok =>
    have hself : (summaryEvent job c name Rs : GridEvent H).concerns c = true := decide_eq_true rfl
    rw [List.filter_append, hreps.filter_concerns hrep, if_pos rfl]
    rw [List.filter_cons_of_pos hself, List.filter_nil]
    apply CellMarks.summarized name (hreps.length_eq hok) hok
  | failed hreps hok =>
    rw [hreps.filter_concerns hrep, if_pos rfl]
    apply CellMarks.failed hok

/-- The events of a cell are about no other. -/
theorem CellEvents.filter_concerns_of_ne {c' : Cell} {es : List (GridEvent H)}
    (h : CellEvents job Rep c' es) (hne : c' ≠ c) :
  es.filter (GridEvent.concerns c) = []
  := by
  cases h with
  | summarized name hreps hok =>
    rw [List.filter_append, hreps.filter_concerns hrep, if_neg hne, List.nil_append]
    simp [summaryEvent, GridEvent.concerns, hne]
  | failed hreps hok => rw [hreps.filter_concerns hrep, if_neg hne]

end Grammar

/-! ## Groups -/

section Groups

variable {job : GridJob} {c : Cell} {cfg : PointConfig} {g : SeedGroup} {cells : List Cell}
  {es : List (GridEvent H)} (h : GroupEvents job cfg g cells es)

include h

/-- The events of a group about one of its cells. -/
theorem GroupEvents.marks (hnodup : cells.Nodup) (hc : c ∈ cells) (hg : g.covers c = true) :
  es.filter (GridEvent.concerns c) = [.setup g false] ∨
    ∃ ms, CellMarks job c ms ∧ es.filter (GridEvent.concerns c) = .setup g true :: ms
  := by
  have hsetup : ∀ ok, (GridEvent.setup g ok : GridEvent H).concerns c = true := fun _ => hg
  cases h with
  | refused hrefused =>
    left
    rw [List.filter_append, hrefused.filter_concerns, List.filter_cons_of_pos (hsetup false)]
    rfl
  | @ran es h blocks hsetupEvents hcells =>
    right
    have hwrites := sharedRepeat_writesOne h job.cellConfig
    obtain ⟨b, hb, hfilter⟩ := Blocks.filter_flatten_of_mem (p := GridEvent.concerns c) hcells
      hnodup hc fun c' b hb hne => CellEvents.filter_concerns_of_ne hwrites hb hne
    refine ⟨b.filter (GridEvent.concerns c), hb.marks hwrites, ?_⟩
    rw [List.filter_append, hsetupEvents.filter_concerns, List.filter_cons_of_pos (hsetup true),
      List.filter_append, hfilter]
    simp [GridEvent.concerns]

/-- The events of a group are about no other cell. -/
theorem GroupEvents.filter_concerns_of_not_mem (hc : c ∉ cells) (hg : g.covers c = false) :
  es.filter (GridEvent.concerns c) = []
  := by
  have hsetup : ∀ ok, ¬ (GridEvent.setup g ok : GridEvent H).concerns c = true := by
    intro ok hok
    rw [GridEvent.concerns, hg] at hok
    cases hok
  cases h with
  | refused hrefused =>
    rw [List.filter_append, hrefused.filter_concerns, List.filter_cons_of_neg (hsetup false)]
    rfl
  | @ran es h blocks hsetupEvents hcells =>
    have hwrites := sharedRepeat_writesOne h job.cellConfig
    rw [List.filter_append, hsetupEvents.filter_concerns, List.filter_cons_of_neg (hsetup true),
      List.filter_append, Blocks.filter_flatten_of_not_mem hcells hc fun c' b hb hne =>
        CellEvents.filter_concerns_of_ne hwrites hb hne]
    rfl

end Groups

/-! ## Engines -/

section Engines

variable {job : GridJob} {c : Cell} {ei : ℕ} {es : List (GridEvent H)} (h : EngineEvents job ei es)

/-- The cells of an engine, one swept value after the other. -/
theorem mem_valueMajor {n m : ℕ} :
  c ∈ ((List.range m).flatMap fun si => (List.range n).map fun ti => (⟨ei, ti, si⟩ : Cell))
    ↔ c.ei = ei ∧ c.ti < n ∧ c.si < m
  := by
  obtain ⟨ei', ti, si⟩ := c
  simp only [List.mem_flatMap, List.mem_map, List.mem_range, Cell.mk.injEq]
  constructor
  · rintro ⟨_, hsi, _, hti, rfl, rfl, rfl⟩
    exact ⟨rfl, hti, hsi⟩
  · rintro ⟨rfl, hti, hsi⟩
    exact ⟨si, hsi, ti, hti, rfl, rfl, rfl⟩

/-- The cells of an engine, one thread count after the other. -/
theorem mem_threadMajor {n m : ℕ} :
  c ∈ ((List.range n).flatMap fun ti => (List.range m).map fun si => (⟨ei, ti, si⟩ : Cell))
    ↔ c.ei = ei ∧ c.ti < n ∧ c.si < m
  := by
  obtain ⟨ei', ti, si⟩ := c
  simp only [List.mem_flatMap, List.mem_map, List.mem_range, Cell.mk.injEq]
  constructor
  · rintro ⟨_, hti, _, hsi, rfl, rfl, rfl⟩
    exact ⟨rfl, hti, hsi⟩
  · rintro ⟨rfl, hti, hsi⟩
    exact ⟨ti, hti, si, hsi, rfl, rfl, rfl⟩

/-- The cells of one swept value of an engine. -/
theorem mem_valueCells {n si : ℕ} :
  c ∈ ((List.range n).map fun ti => (⟨ei, ti, si⟩ : Cell)) ↔ c.ei = ei ∧ c.ti < n ∧ c.si = si
  := by
  obtain ⟨ei', ti, si'⟩ := c
  simp only [List.mem_map, List.mem_range, Cell.mk.injEq]
  constructor
  · rintro ⟨_, hti, rfl, rfl, rfl⟩
    exact ⟨rfl, hti, rfl⟩
  · rintro ⟨rfl, hti, rfl⟩
    exact ⟨ti, hti, rfl, rfl, rfl⟩

/-- A product of two ranges names each of its cells once. -/
theorem nodup_product {f : ℕ → ℕ → Cell}
    (hf : ∀ i j i' j', f i j = f i' j' → i = i' ∧ j = j') (n m : ℕ) :
  ((List.range n).flatMap fun i => (List.range m).map (f i)).Nodup
  := by
  rw [List.nodup_flatMap]
  constructor
  · intro i _
    apply List.nodup_range.map
    intro j j' hj
    apply (hf i j i j' hj).2
  · apply List.nodup_range.imp
    intro i i' hne c hc hc'
    obtain ⟨j, -, rfl⟩ := List.mem_map.mp hc
    obtain ⟨j', -, hj'⟩ := List.mem_map.mp hc'
    apply hne
    apply ((hf i' j' i j hj').1).symm

/-- A group that has a cell gives the events about it. -/
theorem GroupEvents.own {cfg : PointConfig} {g : SeedGroup} {cells : List Cell}
    (h : GroupEvents job cfg g cells es) (hnodup : cells.Nodup) (hc : c ∈ cells)
    (hg : g.covers c = true) (hmode : job.mode ≠ .fresh) (hgroup : job.group c = g) :
  OwnEvents job c (es.filter (GridEvent.concerns c))
  := by
  subst hgroup
  rcases h.marks hnodup hc hg with hes | ⟨ms, hms, hes⟩
  · rw [hes]
    apply OwnEvents.refused hmode
  · rw [hes]
    apply OwnEvents.seeded hmode hms

include h

/-- The events of an engine about one of its cells. -/
theorem EngineEvents.own (hei : c.ei = ei) (hti : c.ti < job.threads.length)
    (hsi : c.si < job.nsteps) :
  OwnEvents job c (es.filter (GridEvent.concerns c))
  := by
  have hrow : ∀ {si}, ((List.range job.threads.length).map fun ti => (⟨ei, ti, si⟩ : Cell)).Nodup := by
    intro si
    apply List.nodup_range.map
    rintro i j ⟨⟩
    rfl
  cases h with
  | perEngine hmode hgroup =>
    apply hgroup.own
    · apply nodup_product
      rintro i j i' j' ⟨⟩
      exact ⟨rfl, rfl⟩
    · apply mem_valueMajor.mpr ⟨hei, hti, hsi⟩
    · simp [SeedGroup.covers, hei]
    · rw [hmode]
      decide
    · rw [GridJob.group, if_pos hmode, hei]
  | perValue hmode hgroups =>
    obtain ⟨b, hb, hfilter⟩ := Blocks.filter_flatten_of_mem (p := GridEvent.concerns c) hgroups
      List.nodup_range (List.mem_range.mpr hsi) fun si b hb hne => by
        apply hb.filter_concerns_of_not_mem
        · rw [mem_valueCells]
          rintro ⟨-, -, hsi⟩
          apply hne hsi.symm
        · simp [SeedGroup.covers, hne]
    rw [hfilter]
    apply hb.own
    · apply hrow
    · apply mem_valueCells.mpr ⟨hei, hti, rfl⟩
    · simp [SeedGroup.covers, hei]
    · rw [hmode]
      decide
    · rw [GridJob.group, if_neg (by rw [hmode]; decide), hei]
  | fresh hmode hcells =>
    have hwrites := freshRepeat_writesOne (H := H) job.cellConfig
    obtain ⟨b, hb, hfilter⟩ := Blocks.filter_flatten_of_mem (p := GridEvent.concerns c) hcells
      (nodup_product (by rintro i j i' j' ⟨⟩; exact ⟨rfl, rfl⟩) _ _)
      (mem_threadMajor.mpr ⟨hei, hti, hsi⟩)
      fun c' b hb hne => CellEvents.filter_concerns_of_ne hwrites hb hne
    rw [hfilter]
    apply OwnEvents.fresh hmode (hb.marks hwrites)

/-- The events of an engine are about no cell of another. -/
theorem EngineEvents.filter_concerns_of_ne (hei : ei ≠ c.ei) :
  es.filter (GridEvent.concerns c) = []
  := by
  cases h with
  | perEngine hmode hgroup =>
    apply hgroup.filter_concerns_of_not_mem
    · rw [mem_valueMajor]
      rintro ⟨hc, -⟩
      apply hei hc.symm
    · simp [SeedGroup.covers, hei]
  | perValue hmode hgroups =>
    apply Blocks.flatten_induct (Q := fun es => es.filter (GridEvent.concerns c) = []) hgroups rfl
    · intro es fs hes hfs
      rw [List.filter_append, hes, hfs, List.append_nil]
    · intro si _ b hb
      apply hb.filter_concerns_of_not_mem
      · rw [mem_valueCells]
        rintro ⟨hc, -⟩
        apply hei hc.symm
      · simp [SeedGroup.covers, hei]
  | fresh hmode hcells =>
    apply Blocks.filter_flatten_of_not_mem hcells
    · rw [mem_threadMajor]
      rintro ⟨hc, -⟩
      apply hei hc.symm
    · intro c' b hb hne
      apply CellEvents.filter_concerns_of_ne (freshRepeat_writesOne job.cellConfig) hb hne

end Engines

/-! ## Summaries -/

/-- The summaries of a cell are among the events about it. -/
theorem summaries_filter (c : Cell) (es : List (GridEvent H)) :
  summaries c (es.filter (GridEvent.concerns c)) = summaries c es
  := by
  rw [summaries, List.filterMap_filter]
  apply List.filterMap_congr
  intro e _
  cases e with
  | setup g ok => exact ite_self _
  | _ => simp [GridEvent.concerns, GridEvent.summary]

/-- The results of a cell are among the events about it. -/
theorem results_filter (c : Cell) (es : List (GridEvent H)) :
  results c (es.filter (GridEvent.concerns c)) = results c es
  := by
  rw [results, List.filterMap_filter]
  apply List.filterMap_congr
  intro e _
  cases e with
  | setup g ok => exact ite_self _
  | _ => simp [GridEvent.concerns, GridEvent.result]

/-- Events that are not about a cell hold no summary of it. -/
theorem summaries_of_filter {c : Cell} {es : List (GridEvent H)}
    (h : es.filter (GridEvent.concerns c) = []) :
  summaries c es = []
  := by
  rw [← summaries_filter, h]
  rfl

theorem summaries_append (c : Cell) (es fs : List (GridEvent H)) :
  summaries c (es ++ fs) = summaries c es ++ summaries c fs
  := List.filterMap_append

/-- Some cells hold no summary of another. -/
theorem summaries_cells {job : GridJob} {c : Cell} {cells : List Cell}
    {blocks : List (List (GridEvent H))}
    {Rep : PointConfig → Cell → ℕ → List (GridEvent H) → PointResult → Prop}
    (hrep : WritesOne fun c => Rep (job.cellConfig c) c)
    (h : List.Forall₂ (CellEvents job Rep) cells blocks) (hc : c ∉ cells) :
  summaries c blocks.flatten = []
  := by
  apply summaries_of_filter
  apply Blocks.filter_flatten_of_not_mem h hc
  intro c' b hb hne
  apply hb.filter_concerns_of_ne hrep hne

/-- A group holds no summary of a cell that it does not have. -/
theorem GroupEvents.summaries_eq_nil {job : GridJob} {c : Cell} {cfg : PointConfig} {g : SeedGroup}
    {cells : List Cell} {es : List (GridEvent H)} (h : GroupEvents job cfg g cells es)
    (hc : c ∉ cells) :
  summaries c es = []
  := by
  cases h with
  | refused hrefused =>
    rw [summaries_append, summaries_of_filter hrefused.filter_concerns]
    rfl
  | @ran es h blocks hsetup hcells =>
    have hblocks := summaries_cells (sharedRepeat_writesOne h job.cellConfig) hcells hc
    have hrest : summaries c (.setup g true :: (blocks.flatten ++ [.closed h]))
        = summaries c (blocks.flatten ++ [.closed h]) := rfl
    rw [summaries_append, summaries_of_filter hsetup.filter_concerns, hrest, summaries_append,
      hblocks]
    rfl

/-- An engine holds no summary but those of its cells. -/
theorem EngineEvents.summaries_eq_nil {job : GridJob} {c : Cell} {ei : ℕ} {es : List (GridEvent H)}
    (h : EngineEvents job ei es)
    (hc : ¬ (c.ei = ei ∧ c.ti < job.threads.length ∧ c.si < job.nsteps)) :
  summaries c es = []
  := by
  cases h with
  | perEngine hmode hgroup =>
    apply hgroup.summaries_eq_nil
    rw [mem_valueMajor]
    apply hc
  | perValue hmode hgroups =>
    apply Blocks.flatten_induct (Q := fun es => summaries c es = []) hgroups rfl
    · intro es fs hes hfs
      rw [summaries_append, hes, hfs, List.append_nil]
    · intro si hsi b hb
      apply hb.summaries_eq_nil
      rw [mem_valueCells]
      rintro ⟨hei, hti, rfl⟩
      apply hc ⟨hei, hti, List.mem_range.mp hsi⟩
  | fresh hmode hcells =>
    apply summaries_cells (freshRepeat_writesOne job.cellConfig) hcells
    rw [mem_threadMajor]
    apply hc

theorem results_writes (c : Cell) (r : ℕ) (Rs : List PointResult) :
  results c (writes c r Rs : List (GridEvent H)) = (List.range' r Rs.length).zip Rs
  := by
  induction Rs generalizing r with
  | nil => rfl
  | cons R Rs ih =>
    have hcons : results c (writes c r (R :: Rs) : List (GridEvent H))
        = (r, R) :: results c (writes c (r + 1) Rs : List (GridEvent H)) := by
      simp [results, writes, GridEvent.result]
    rw [hcons, ih, List.length_cons, List.range'_succ, List.zip_cons_cons]

theorem summaries_writes (c : Cell) (r : ℕ) (Rs : List PointResult) :
  summaries c (writes c r Rs : List (GridEvent H)) = []
  := by
  induction Rs generalizing r with
  | nil => rfl
  | cons R Rs ih => apply ih

/-- What the events about a cell that is run hold. -/
theorem CellMarks.spec {job : GridJob} {c : Cell} {es : List (GridEvent H)}
    (h : CellMarks job c es) :
  (∃ name, (results c es).map Prod.fst = List.range job.repeats ∧
      (∀ R ∈ results c es, R.2.ok = true) ∧
      summaries c es = [summarizePoint name ((results c es).map Prod.snd) (job.cellConfig c).threads
        (job.cellConfig c).sweepParam (job.cellConfig c).sweepValue]) ∨
    (∃ R ∈ results c es, R.2.ok = false) ∧ summaries c es = []
  := by
  cases h with
  | @summarized name Rs hlen hok =>
    left
    have hself : results c [(summaryEvent job c name Rs : GridEvent H)] = [] := rfl
    have hresults : results c (writes c 0 Rs ++ [(summaryEvent job c name Rs : GridEvent H)])
        = (List.range' 0 Rs.length).zip Rs := by
      rw [results, List.filterMap_append, ← results, ← results, results_writes, hself,
        List.append_nil]
    use name
    rw [hresults, summaries_append, summaries_writes, List.nil_append]
    and_intros
    · rw [List.map_fst_zip (by simp), hlen, List.range_eq_range']
    · intro R hR
      apply hok R.2 (List.of_mem_zip hR).2
    · rw [List.map_snd_zip (by simp)]
      simp [summaries, summaryEvent, GridEvent.summary]
  | @failed Rs hok =>
    right
    obtain ⟨R, hR, hbad⟩ := hok
    have hsnd : ((List.range' 0 Rs.length).zip Rs).map Prod.snd = Rs := List.map_snd_zip (by simp)
    rw [← hsnd] at hR
    obtain ⟨x, hx, rfl⟩ := List.mem_map.mp hR
    rw [results_writes]
    exact ⟨⟨x, hx, hbad⟩, summaries_writes c 0 Rs⟩

/-- The cell that an event summarises. -/
def GridEvent.cell : GridEvent H → Option Cell
  | .summarized c _ _ => some c
  | _ => none

/-- A cell is named as often as it is summarised. -/
theorem count_cells (c : Cell) (es : List (GridEvent H)) :
  (es.filterMap GridEvent.cell).count c = (summaries c es).length
  := by
  induction es with
  | nil => rfl
  | cons e es ih =>
    rw [summaries, List.filterMap_cons, List.filterMap_cons, ← summaries]
    cases e with
    | summarized c' row rp =>
      by_cases hc : c' = c
      · simp [GridEvent.cell, GridEvent.summary, hc, ih]
      · simp [GridEvent.cell, GridEvent.summary, hc, ih]
    | _ => apply ih

/-- Each summary has a row. -/
theorem length_rows (es : List (GridEvent H)) :
  (es.filterMap GridEvent.row).length = (es.filterMap GridEvent.cell).length
  := by
  induction es with
  | nil => rfl
  | cons e es ih =>
    rw [List.filterMap_cons, List.filterMap_cons]
    cases e with
    | summarized c row rp =>
      rw [GridEvent.row, GridEvent.cell]
      apply congrArg Nat.succ ih
    | _ => apply ih

/-- A cell is in its group. -/
theorem GridJob.group_covers (job : GridJob) (c : Cell) :
  (job.group c).covers c = true
  := by
  rw [GridJob.group]
  split_ifs <;> simp [SeedGroup.covers]

/-- A cell of the grid is summarised once when it has been seeded and its repeats have succeeded,
with the results of all its repeats, and not at all otherwise. -/
theorem OwnEvents.spec {job : GridJob} {c : Cell} {trace : List (GridEvent H)}
    (h : OwnEvents job c (trace.filter (GridEvent.concerns c))) :
  (Seeded job trace c ∧ RepeatsOk trace c ∧
      ∃ name, (results c trace).map Prod.fst = List.range job.repeats ∧
        summaries c trace = [summarizePoint name ((results c trace).map Prod.snd)
          (job.cellConfig c).threads (job.cellConfig c).sweepParam (job.cellConfig c).sweepValue]) ∨
    ¬ (Seeded job trace c ∧ RepeatsOk trace c) ∧ summaries c trace = []
  := by
  have hmem : ∀ ok, (.setup (job.group c) ok : GridEvent H) ∈ trace
      ↔ .setup (job.group c) ok ∈ trace.filter (GridEvent.concerns c) := by
    intro ok
    rw [List.mem_filter, GridEvent.concerns, job.group_covers]
    simp
  rw [Seeded, RepeatsOk, hmem, ← results_filter, ← summaries_filter]
  generalize trace.filter (GridEvent.concerns c) = own at h
  cases h with
  | fresh hmode hes =>
    rcases hes.spec with ⟨name, hfst, hok, hsummary⟩ | ⟨⟨R, hR, hbad⟩, hsummary⟩
    · left
      exact ⟨.inl hmode, hok, name, hfst, hsummary⟩
    · right
      refine ⟨?_, hsummary⟩
      rintro ⟨-, hok⟩
      rw [hok R hR] at hbad
      cases hbad
  | refused hmode =>
    right
    constructor
    · rintro ⟨hseeded, -⟩
      simp [hmode] at hseeded
    · rfl
  | @seeded es hmode hes =>
    have hresults : results c (.setup (job.group c) true :: es) = results c es := rfl
    have hsummaries : summaries c (.setup (job.group c) true :: es) = summaries c es := rfl
    rw [hresults, hsummaries]
    rcases hes.spec with ⟨name, hfst, hok, hsummary⟩ | ⟨⟨R, hR, hbad⟩, hsummary⟩
    · left
      exact ⟨.inr List.mem_cons_self, hok, name, hfst, hsummary⟩
    · right
      refine ⟨?_, hsummary⟩
      rintro ⟨-, hok⟩
      rw [hok R hR] at hbad
      cases hbad

/-! ## Runs -/

section Runs

variable {W : Type} (env : GridEnv W H) (job : GridJob) (w : W) (results₀ : ℕ → PointResult)

/-- The events of a run about a cell. -/
theorem runFile_own {c : Cell} (hc : c ∈ job.cells) :
  OwnEvents job c ((runFile env job w results₀).trace.filter (GridEvent.concerns c))
  := by
  obtain ⟨blocks, hengines, htrace, -⟩ := runFile_events env job w results₀
  obtain ⟨hei, hti, hsi⟩ := job.mem_cells.mp hc
  obtain ⟨b, hb, hfilter⟩ := Blocks.filter_flatten_of_mem (p := GridEvent.concerns c) hengines
    List.nodup_range (List.mem_range.mpr hei) fun ei b hb hne => hb.filter_concerns_of_ne hne
  rw [htrace, hfilter]
  apply hb.own rfl hti hsi

/-- A cell that is not of the grid is not summarised. -/
theorem runFile_summaries_of_not_mem {c : Cell} (hc : c ∉ job.cells) :
  summaries c (runFile env job w results₀).trace = []
  := by
  obtain ⟨blocks, hengines, htrace, -⟩ := runFile_events env job w results₀
  rw [htrace]
  apply Blocks.flatten_induct (Q := fun es => summaries c es = []) hengines rfl
  · intro es fs hes hfs
    rw [summaries_append, hes, hfs, List.append_nil]
  · intro ei hei b hb
    apply hb.summaries_eq_nil
    rintro ⟨rfl, hti, hsi⟩
    apply hc (job.mem_cells.mpr ⟨List.mem_range.mp hei, hti, hsi⟩)

/-- A cell is summarised when it is one of the grid, its store has been seeded and its repeats have
succeeded. -/
theorem runFile_summaries_iff (c : Cell) :
  summaries c (runFile env job w results₀).trace ≠ []
    ↔ c ∈ job.cells ∧ Seeded job (runFile env job w results₀).trace c ∧
      RepeatsOk (runFile env job w results₀).trace c
  := by
  by_cases hc : c ∈ job.cells
  · rcases (runFile_own env job w results₀ hc).spec with ⟨hseeded, hok, name, -, hsummary⟩ |
      ⟨hnot, hsummary⟩
    · simp [hc, hseeded, hok, hsummary]
    · simp [hc, hnot, hsummary]
  · simp [hc, runFile_summaries_of_not_mem env job w results₀ hc]

/-- A cell is summarised at most once. -/
theorem length_summaries_le (c : Cell) :
  (summaries c (runFile env job w results₀).trace).length ≤ 1
  := by
  by_cases hc : c ∈ job.cells
  · rcases (runFile_own env job w results₀ hc).spec with ⟨-, -, name, -, hsummary⟩ | ⟨-, hsummary⟩
    · rw [hsummary, List.length_singleton]
    · rw [hsummary, List.length_nil]
      apply Nat.zero_le
  · rw [runFile_summaries_of_not_mem env job w results₀ hc, List.length_nil]
    apply Nat.zero_le

/-- The rows of a run are those of its trace. -/
theorem runFile_rows :
  (runFile env job w results₀).rows = (runFile env job w results₀).trace.filterMap GridEvent.row
  := by
  obtain ⟨blocks, -, htrace, hrows⟩ := runFile_events env job w results₀
  rw [htrace, hrows]

/-- The rows of a run are at most the cells. -/
theorem length_rows_le :
  (runFile env job w results₀).rows.length ≤ job.npoints
  := by
  have hnodup : ((runFile env job w results₀).trace.filterMap GridEvent.cell).Nodup := by
    rw [List.nodup_iff_count_le_one]
    intro c
    rw [count_cells]
    apply length_summaries_le
  have hsubset : (runFile env job w results₀).trace.filterMap GridEvent.cell ⊆ job.cells := by
    intro c hc
    by_contra hnot
    have hcount := List.count_pos_iff.mpr hc
    rw [count_cells, runFile_summaries_of_not_mem env job w results₀ hnot] at hcount
    apply lt_irrefl _ hcount
  rw [runFile_rows, length_rows, ← job.length_cells]
  apply (hnodup.subperm hsubset).length_le

/-- The summary of a cell is made of the results of all its repeats. -/
theorem runFile_summary {c : Cell} {s : SummaryRow × ReportPoint}
    (hs : s ∈ summaries c (runFile env job w results₀).trace) :
  ∃ name, (results c (runFile env job w results₀).trace).map Prod.fst = List.range job.repeats ∧
    s = summarizePoint name ((results c (runFile env job w results₀).trace).map Prod.snd)
      (job.cellConfig c).threads (job.cellConfig c).sweepParam (job.cellConfig c).sweepValue
  := by
  have hc : c ∈ job.cells := by
    by_contra hnot
    rw [runFile_summaries_of_not_mem env job w results₀ hnot] at hs
    cases hs
  rcases (runFile_own env job w results₀ hc).spec with ⟨-, -, name, hfst, hsummary⟩ | ⟨-, hsummary⟩
  · rw [hsummary] at hs
    exact ⟨name, hfst, List.mem_singleton.mp hs⟩
  · rw [hsummary] at hs
    cases hs

/-- Without a failure a cell is summarised when it is one of the grid. -/
theorem runFile_summaries_iff_mem
    (hgood : ∀ e ∈ (runFile env job w results₀).trace, e.isFailure = false) (c : Cell) :
  summaries c (runFile env job w results₀).trace ≠ [] ↔ c ∈ job.cells
  := by
  rw [runFile_summaries_iff]
  constructor
  · rintro ⟨hc, -⟩
    apply hc
  · intro hc
    refine ⟨hc, ?_, ?_⟩
    · have hown := runFile_own env job w results₀ hc
      have hmem : ∀ e, e ∈ (runFile env job w results₀).trace.filter (GridEvent.concerns c) →
          e ∈ (runFile env job w results₀).trace := fun e he => (List.mem_filter.mp he).1
      generalize (runFile env job w results₀).trace.filter (GridEvent.concerns c) = own
        at hown hmem
      cases hown with
      | fresh hmode _ => exact .inl hmode
      | refused _ =>
        have hbad := hgood _ (hmem _ (List.mem_singleton_self _))
        cases hbad
      | seeded _ _ => exact .inr (hmem _ List.mem_cons_self)
    · intro R hR
      obtain ⟨e, he, hresult⟩ := List.mem_filterMap.mp hR
      have hnot := hgood e he
      cases e with
      | measured c' r R' =>
        simp only [GridEvent.result, Option.ite_none_right_eq_some, Option.some.injEq] at hresult
        obtain ⟨-, rfl⟩ := hresult
        simpa [GridEvent.isFailure] using hnot
      | _ => cases hresult

end Runs

/-- In each mode and with each pattern of failures, a cell is summarised at most once, and exactly
when it is a cell of the grid whose store has been seeded and whose repeats have succeeded.  Its
summary has its thread count and its swept value, and is made of the results of its own repeats.
The rows are those of the summaries, and at most `npoints`.  Two runs without a failure of jobs with
the same engines, thread counts and swept values summarise the same cells. -/
theorem runFile_cells {W : Type} (env : GridEnv W H) (job : GridJob) (w : W)
    (results₀ : ℕ → PointResult) :
  (∀ c, (summaries c (runFile env job w results₀).trace).length ≤ 1 ∧
      (summaries c (runFile env job w results₀).trace ≠ []
        ↔ c ∈ job.cells ∧ Seeded job (runFile env job w results₀).trace c ∧
          RepeatsOk (runFile env job w results₀).trace c)) ∧
    (∀ c s, s ∈ summaries c (runFile env job w results₀).trace →
      (job.threads[c.ti]? = some s.1.threads ∧ s.2.threads = s.1.threads ∧
        s.1.sweepValue = job.sweepValue c.si ∧ s.2.sweepValue = job.sweepValue c.si) ∧
      ∃ name, (results c (runFile env job w results₀).trace).map Prod.fst
          = List.range job.repeats ∧
        s = summarizePoint name ((results c (runFile env job w results₀).trace).map Prod.snd)
          s.1.threads job.sweepParam s.1.sweepValue) ∧
    ((runFile env job w results₀).rows
        = (runFile env job w results₀).trace.filterMap GridEvent.row ∧
      (runFile env job w results₀).rows.length ≤ job.npoints) ∧
    ∀ {W' H' : Type} (env' : GridEnv W' H') (job' : GridJob) (w' : W') (results₀' : ℕ → PointResult),
      job'.engines = job.engines → job'.threads = job.threads →
      job'.sweep.values = job.sweep.values →
      (∀ e ∈ (runFile env job w results₀).trace, e.isFailure = false) →
      (∀ e ∈ (runFile env' job' w' results₀').trace, e.isFailure = false) →
      ∀ c, summaries c (runFile env job w results₀).trace ≠ []
        ↔ summaries c (runFile env' job' w' results₀').trace ≠ []
  := by
  and_intros
  · intro c
    exact ⟨length_summaries_le env job w results₀ c, runFile_summaries_iff env job w results₀ c⟩
  · intro c s hs
    have hne : summaries c (runFile env job w results₀).trace ≠ [] := List.ne_nil_of_mem hs
    have hc := ((runFile_summaries_iff env job w results₀ c).mp hne).1
    obtain ⟨-, hti, -⟩ := job.mem_cells.mp hc
    obtain ⟨name, hfst, rfl⟩ := runFile_summary env job w results₀ hs
    have hthreads : job.threads[c.ti]? = some (job.cellConfig c).threads := by
      rw [GridJob.cellConfig, GridJob.engineConfig, List.getD_eq_getElem?_getD,
        List.getElem?_eq_getElem hti, Option.getD_some]
    exact ⟨⟨hthreads, rfl, rfl, rfl⟩, name, hfst, rfl⟩
  · apply runFile_rows
  · apply length_rows_le
  · intro W' H' env' job' w' results₀' hengines hthreads hvalues hgood hgood' c
    rw [runFile_summaries_iff_mem env job w results₀ hgood,
      runFile_summaries_iff_mem env' job' w' results₀' hgood', job.mem_cells, job'.mem_cells,
      hengines, hthreads, GridJob.nsteps, GridJob.nsteps, hvalues]

end Keybench
