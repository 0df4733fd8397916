import Keybench.Plot.RoundTrip

/-!
# The timeline of the plot script

`tl_series` takes the greatest thread count and the smallest swept value of the rows it picks, and
shows the rows that have both.  It averages rows of one cell at increasing times in every case, and
shows something when one of the picked rows has both extrema (`showsRun_iff`).
-/

namespace Keybench

/-! ## The series -/

/-- A column read by `to_int`. -/
def rowInt (u : Unicode) (name : String) (row : TsvRow) : Option ℤ :=
  (Dict.get row (column name)).bind (toInt u)

/-- A column read by `to_float`. -/
def rowFloat (u : Unicode) (name : String) (row : TsvRow) : Option Binary64 :=
  (Dict.get row (column name)).bind (toFloat u)

/-- `round (x, 1)`. -/
def roundTenth : Binary64 → Binary64
  | .finite q => .ofRat (Binary64.roundEven (q * 10) / 10)
  | x => x

/-- Whether `tl_series` picks a row: it is of the engine, the workload and the metric, and of the
run phase. -/
def isPicked (engine workload metric : Str) (row : TsvRow) : Option Bool := do
  if (← Dict.get row (column "engine")) ≠ some engine then some false
  else if (← Dict.get row (column "workload")) ≠ some workload then some false
  else if (← Dict.get row (column "metric")) ≠ some metric then some false
  else some ((Dict.get row (column "phase")).getD (some (column "run")) = some (column "run"))

/-- Whether a row is of a cell. -/
def inCell (u : Unicode) (threads sweepValue : ℤ) (row : TsvRow) : Option Bool := do
  if (← rowInt u "threads" row) ≠ threads then some false
  else some ((← rowInt u "sweep_value" row) = sweepValue)

/-- The rounded time and the value of a row. -/
def rowSample (u : Unicode) (row : TsvRow) : Option (Binary64 × Binary64) := do
  let elapsed ← rowFloat u "elapsed_s" row
  let value ← rowFloat u "value" row
  some (roundTenth elapsed, value)

/-- The averages of samples by time. -/
def averages (average : List Binary64 → Binary64) (samples : List (Binary64 × Binary64)) :
    List (Binary64 × Binary64) :=
  ((Dict.group Prod.fst Prod.snd samples).mergeSort (fun a b => a.1.rank ≤ b.1.rank)).map
    (fun e => (e.1, average e.2))

/-- `tl_series`, where `average v` is `sum (v) / len (v)`. -/
def tlSeries (u : Unicode) (average : List Binary64 → Binary64) (rows : List TsvRow)
    (engine workload metric : Str) : Option (List (Binary64 × Binary64)) := do
  let picked ← rows.filterM (isPicked engine workload metric)
  if picked = [] then some []
  else
    let threads ← (← picked.mapM (rowInt u "threads")).max?
    let sweepValue ← (← picked.mapM (rowInt u "sweep_value")).min?
    let cell ← picked.filterM (inCell u threads sweepValue)
    let samples ← cell.mapM (rowSample u)
    some (averages average samples)

/-! ## Rows of a timeline -/

/-- A row of a timeline has all columns and numbers where they belong, and its time is a number. -/
structure IsTimelineRow (u : Unicode) (row : TsvRow) : Prop where
  engine : (Dict.get row (column "engine")).isSome
  workload : (Dict.get row (column "workload")).isSome
  metric : (Dict.get row (column "metric")).isSome
  threads : (rowInt u "threads" row).isSome
  sweepValue : (rowInt u "sweep_value" row).isSome
  elapsed : ∃ t, rowFloat u "elapsed_s" row = some t ∧ t ≠ .nan
  value : (rowFloat u "value" row).isSome

/-- A row of the run phase for an engine, a workload and a metric. -/
def Picked (engine workload metric : Str) (row : TsvRow) : Prop :=
  Dict.get row (column "engine") = some (some engine) ∧
  Dict.get row (column "workload") = some (some workload) ∧
  Dict.get row (column "metric") = some (some metric) ∧
  (Dict.get row (column "phase")).getD (some (column "run")) = some (column "run")

instance decidablePicked (engine workload metric : Str) (row : TsvRow) :
    Decidable (Picked engine workload metric row) :=
  inferInstanceAs (Decidable (_ ∧ _ ∧ _ ∧ _))

/-- The threads of a row. -/
def rowThreads (u : Unicode) (row : TsvRow) : ℤ := (rowInt u "threads" row).getD 0

/-- The swept value of a row. -/
def rowSweepValue (u : Unicode) (row : TsvRow) : ℤ := (rowInt u "sweep_value" row).getD 0

/-- The sample of a row. -/
def sampleOf (u : Unicode) (row : TsvRow) : Binary64 × Binary64 :=
  (roundTenth ((rowFloat u "elapsed_s" row).getD .nan), (rowFloat u "value" row).getD .nan)

/-- The picked rows of a cell. -/
def cellRows (u : Unicode) (rows : List TsvRow) (engine workload metric : Str)
    (threads sweepValue : ℤ) : List TsvRow :=
  rows.filter (fun row => Picked engine workload metric row ∧ rowThreads u row = threads
    ∧ rowSweepValue u row = sweepValue)

/-- The series averages the rows at each of their times, and the times increase. -/
structure AveragesRows (u : Unicode) (average : List Binary64 → Binary64) (rows : List TsvRow)
    (series : List (Binary64 × Binary64)) : Prop where
  increasing : series.Pairwise (fun a b => a.1.rank < b.1.rank)
  mem_iff : ∀ t v, (t, v) ∈ series ↔ (∃ row ∈ rows, (sampleOf u row).1 = t) ∧
    v = average ((rows.filter (fun row => (sampleOf u row).1 = t)).map
      (fun row => (sampleOf u row).2))

/-- `tl_series` shows a run when it has rows, and averages rows of one cell at increasing times. -/
def ShowsRun (u : Unicode) (average : List Binary64 → Binary64) (rows : List TsvRow)
    (engine workload metric : Str) : Prop :=
  ∃ series, tlSeries u average rows engine workload metric = some series ∧
    ((∃ row ∈ rows, Picked engine workload metric row) → series ≠ []) ∧
    ∃ threads sweepValue,
      AveragesRows u average (cellRows u rows engine workload metric threads sweepValue) series

/-! ## What the rows of a timeline give -/

section

variable {u : Unicode} {row : TsvRow}

/-- The test of a row succeeds. -/
theorem isPicked_eq (h : IsTimelineRow u row) (engine workload metric : Str) :
  isPicked engine workload metric row = some (decide (Picked engine workload metric row))
  := by
  obtain ⟨e, he⟩ := Option.isSome_iff_exists.mp h.engine
  obtain ⟨w, hw⟩ := Option.isSome_iff_exists.mp h.workload
  obtain ⟨m, hm⟩ := Option.isSome_iff_exists.mp h.metric
  simp only [isPicked, Picked, he, hw, hm, Option.bind_eq_bind, Option.bind_some, Option.some_inj]
  split_ifs with h₁ h₂ h₃
  · simp [h₁]
  · simp [h₂]
  · simp [h₃]
  · simp [not_not.mp h₁, not_not.mp h₂, not_not.mp h₃]

/-- The threads of a row are read. -/
theorem rowInt_threads (h : IsTimelineRow u row) :
  rowInt u "threads" row = some (rowThreads u row)
  := by
  obtain ⟨n, hn⟩ := Option.isSome_iff_exists.mp h.threads
  rw [rowThreads, hn, Option.getD_some]

/-- The swept value of a row is read. -/
theorem rowInt_sweepValue (h : IsTimelineRow u row) :
  rowInt u "sweep_value" row = some (rowSweepValue u row)
  := by
  obtain ⟨n, hn⟩ := Option.isSome_iff_exists.mp h.sweepValue
  rw [rowSweepValue, hn, Option.getD_some]

/-- Whether a row is of a cell is read. -/
theorem inCell_eq (h : IsTimelineRow u row) (threads sweepValue : ℤ) :
  inCell u threads sweepValue row
    = some (decide (rowThreads u row = threads ∧ rowSweepValue u row = sweepValue))
  := by
  rw [inCell, rowInt_threads h, rowInt_sweepValue h]
  simp only [Option.bind_eq_bind, Option.bind_some]
  split_ifs with hthreads
  · simp [hthreads]
  · simp [not_not.mp hthreads]

/-- The sample of a row is read. -/
theorem rowSample_eq (h : IsTimelineRow u row) :
  rowSample u row = some (sampleOf u row)
  := by
  obtain ⟨t, ht, -⟩ := h.elapsed
  obtain ⟨v, hv⟩ := Option.isSome_iff_exists.mp h.value
  simp only [rowSample, sampleOf, ht, hv, Option.bind_eq_bind, Option.bind_some, Option.getD_some]

end

/-! ## Rows of the timeline reporter -/

/-- The row of a metric of a sample. -/
def timelineRow (s : ReportSample) (m : SampleMetric) : TsvRow :=
  dictRow (timelineColumns.map Utf8.ofAscii) ((timelineCells s m).map str)

section

variable {u : Unicode} (s : ReportSample) (m : SampleMetric)

/-- The cell of a column of a row. -/
theorem get_timelineRow {i : ℕ} {name : Str}
    (hi : (timelineColumns.map Utf8.ofAscii)[i]? = some name) :
  Dict.get (timelineRow s m) name = some ((timelineCells s m)[i]?.map str)
  := by
  have hnames : (timelineColumns.map Utf8.ofAscii).Nodup := by decide
  rw [timelineRow, get_dictRow hnames _ hi, List.getElem?_map]

/-- The threads of a row are those of its sample. -/
theorem rowInt_timelineRow_threads :
  rowInt u "threads" (timelineRow s m) = some s.threads.toInt
  := by
  have hle := s.threads.le_toInt
  have hlt := s.threads.toInt_lt
  have hcell : Dict.get (timelineRow s m) (column "threads")
      = some (some (str (fmtInt s.threads.toInt))) := by
    apply get_timelineRow (i := 2)
    decide
  rw [rowInt, hcell, Option.bind_some, toInt_str (by omega) (by omega)]

/-- The swept value that is printed is an integer of 64 bits. -/
theorem ReportSample.printedValue_long :
  -2 ^ 63 ≤ s.printedValue ∧ s.printedValue < 2 ^ 63
  := by
  rw [ReportSample.printedValue]
  split_ifs
  · exact ⟨s.sweepValue.le_toInt, s.sweepValue.toInt_lt⟩
  · decide

/-- The swept value of a row is that of its sample. -/
theorem rowInt_timelineRow_sweepValue :
  rowInt u "sweep_value" (timelineRow s m) = some s.printedValue
  := by
  obtain ⟨hvalue, hvalue'⟩ := s.printedValue_long
  have hcell : Dict.get (timelineRow s m) (column "sweep_value")
      = some (some (str (fmtInt s.printedValue))) := by
    apply get_timelineRow (i := 4)
    decide
  rw [rowInt, hcell, Option.bind_some, toInt_str hvalue hvalue']

/-- The texts of a row. -/
theorem texts_timelineRow :
  Dict.get (timelineRow s m) (column "engine") = some (some (str s.engine)) ∧
  Dict.get (timelineRow s m) (column "workload") = some (some (str s.workload)) ∧
  Dict.get (timelineRow s m) (column "metric") = some (some (str m.name)) ∧
  Dict.get (timelineRow s m) (column "phase") = some (some (str (s.phase.getD (ascii "run"))))
  := by
  refine ⟨?_, ?_, ?_, ?_⟩
  · apply get_timelineRow (i := 1)
    decide
  · apply get_timelineRow (i := 0)
    decide
  · apply get_timelineRow (i := 7)
    decide
  · apply get_timelineRow (i := 5)
    decide

/-- The timeline reporter prints rows of a timeline. -/
theorem isTimelineRow_timelineRow :
  IsTimelineRow u (timelineRow s m)
  := by
  obtain ⟨hengine, hworkload, hmetric, -⟩ := texts_timelineRow s m
  have helapsed : Dict.get (timelineRow s m) (column "elapsed_s")
      = some (some (str (fmtFixed 3 s.elapsedS))) := by
    apply get_timelineRow (i := 6)
    decide
  have hvalue : Dict.get (timelineRow s m) (column "value")
      = some (some (str (fmtFixed 3 m.value))) := by
    apply get_timelineRow (i := 8)
    decide
  constructor
  · rw [hengine, Option.isSome_some]
  · rw [hworkload, Option.isSome_some]
  · rw [hmetric, Option.isSome_some]
  · rw [rowInt_timelineRow_threads, Option.isSome_some]
  · rw [rowInt_timelineRow_sweepValue, Option.isSome_some]
  · rw [rowFloat, helapsed, Option.bind_some, toFloat_str_fmtFixed (by decide)]
    exact ⟨_, rfl, Binary64.ofRat_ne_nan _⟩
  · rw [rowFloat, hvalue, Option.bind_some, toFloat_str_fmtFixed (by decide), Option.isSome_some]

/-- What picks a row of a sample. -/
theorem picked_timelineRow (engine workload metric : Str) :
  Picked engine workload metric (timelineRow s m)
    ↔ str s.engine = engine ∧ str s.workload = workload ∧ str m.name = metric ∧
      str (s.phase.getD (ascii "run")) = column "run"
  := by
  obtain ⟨hengine, hworkload, hmetric, hphase⟩ := texts_timelineRow s m
  rw [Picked, hengine, hworkload, hmetric, hphase, Option.getD_some]
  simp only [Option.some_inj]

end

/-! ## The file of the timeline reporter -/

/-- What the reporter is called with: names that need no quotes and fit their buffers, and
numbers. -/
structure ReportSample.Promised (s : ReportSample) : Prop where
  workload : PlainName s.workload ∧ s.workload.length < 1024
  engine : PlainName s.engine ∧ s.engine.length < 1024
  sweepParam : PlainName (s.sweepParam.getD []) ∧ (s.sweepParam.getD []).length < 1024
  phase : PlainName (s.phase.getD (ascii "run")) ∧ (s.phase.getD (ascii "run")).length < 1024
  elapsedS : |s.elapsedS| < 2 ^ 1024
  name : ∀ m ∈ s.metrics, PlainName m.name ∧ m.name.length < 1024
  value : ∀ m ∈ s.metrics, |m.value| < 2 ^ 1024

/-- The cells of a metric need no quotes. -/
theorem plain_timelineCells {s : ReportSample} (h : s.Promised) {m : SampleMetric}
    (hm : m ∈ s.metrics) :
  ∀ cell ∈ timelineCells s m, PlainName cell ∧ cell.length < 1024
  := by
  have hint : ∀ n : ℤ, -2 ^ 63 ≤ n → n < 2 ^ 63 →
      PlainName (fmtInt n) ∧ (fmtInt n).length < 1024 := by
    intro n hle hlt
    have hordinary := ordinary_of_isPrinted (fun c hc => isPrinted_fmtInt (n := n) hc)
    exact ⟨hordinary.plain.1, length_fmtInt_lt hle hlt⟩
  have hfixed : ∀ q : ℚ, |q| < 2 ^ 1024 →
      PlainName (fmtFixed 3 q) ∧ (fmtFixed 3 q).length < 1024 := by
    intro q hq
    have hordinary := ordinary_of_isPrinted (fun c hc => isPrinted_fmtFixed (k := 3) (q := q) hc)
    exact ⟨hordinary.plain.1, length_fmtFixed_lt (by decide) (by decide) hq⟩
  have hle := s.threads.le_toInt
  have hlt := s.threads.toInt_lt
  obtain ⟨hvalue, hvalue'⟩ := s.printedValue_long
  simp only [timelineCells, List.forall_mem_cons]
  exact ⟨h.workload, h.engine, hint _ (by omega) (by omega), h.sweepParam, hint _ hvalue hvalue',
    h.phase, hfixed _ h.elapsedS, h.name m hm, hfixed _ (h.value m hm), by simp⟩

/-- The file of samples is read as the rows of their metrics. -/
theorem readTsv_timelineText {ss : List ReportSample} (h : ∀ s ∈ ss, s.Promised) :
  readTsv (timelineText ss) = some ((sampleMetrics ss).map (fun sm => timelineRow sm.1 sm.2))
  := by
  cases ss with
  | nil => rfl
  | cons s ss =>
    have hcolumns : ∀ name ∈ timelineColumns, Ordinary name ∧ name.length < 1024 := by
      decide
    have hnames : timelineColumns.map str = timelineColumns.map Utf8.ofAscii := by
      apply List.map_congr_left
      intro name hname
      apply (hcolumns name hname).1.str_eq.2
    have hcomp : (fun cells : List Bytes => dictRow (timelineColumns.map Utf8.ofAscii)
        (cells.map str)) ∘ (fun sm : ReportSample × SampleMetric => timelineCells sm.1 sm.2)
          = fun sm => timelineRow sm.1 sm.2 := by
      funext sm
      rw [Function.comp_apply, timelineRow]
    rw [timelineText_cons, readTsv_lines, List.map_map, hnames, hcomp]
    · rw [List.forall_mem_cons, List.forall_mem_map]
      use by decide
      intro sm _
      apply Nat.le_add_left 2 7
    · rw [List.forall_mem_cons, List.forall_mem_map]
      constructor
      · intro name hname
        exact ⟨(hcolumns name hname).1.plain.1, (hcolumns name hname).2⟩
      · intro sm hsm
        obtain ⟨s', hs', hmem⟩ := List.mem_flatMap.mp hsm
        obtain ⟨m, hm, rfl⟩ := List.mem_map.mp hmem
        apply plain_timelineCells (h s' hs') hm

/-- All rows of the file of samples are rows of a timeline. -/
theorem isTimelineRow_of_timelineText {u : Unicode} {ss : List ReportSample}
    (h : ∀ s ∈ ss, s.Promised) :
  ∃ rows, readTsv (timelineText ss) = some rows ∧ ∀ row ∈ rows, IsTimelineRow u row
  := by
  use (sampleMetrics ss).map (fun sm => timelineRow sm.1 sm.2), readTsv_timelineText h
  rw [List.forall_mem_map]
  intro sm _
  apply isTimelineRow_timelineRow

/-! ## What is averaged -/

section

variable {u : Unicode} (average : List Binary64 → Binary64) (rows : List TsvRow)

/-- The averages of samples have the times of the samples, increasing. -/
theorem averages_averagesRows :
  AveragesRows u average rows (averages average (rows.map (sampleOf u)))
  := by
  constructor
  · rw [averages, List.pairwise_map]
    apply Dict.pairwise_mergeSort Binary64.rank_injective (Dict.nodup_group _ _ _)
  · intro t v
    have hmem : ∀ t vs, (t, vs) ∈ Dict.group Prod.fst Prod.snd (rows.map (sampleOf u))
        ↔ (∃ row ∈ rows, (sampleOf u row).1 = t) ∧
          vs = (rows.filter (fun row => (sampleOf u row).1 = t)).map
            (fun row => (sampleOf u row).2) := by
      intro t vs
      rw [Dict.mem_iff_get (Dict.nodup_group _ _ _), Dict.get_group, List.filter_map, List.map_map,
        List.map_map, Option.ite_none_right_eq_some, List.mem_map, Option.some_inj,
        eq_comm (b := vs)]
      rfl
    simp only [averages, List.mem_map, List.mem_mergeSort, Prod.exists, Prod.mk.injEq, hmem]
    constructor
    · rintro ⟨t, vs, ⟨htime, hvs⟩, rfl, rfl⟩
      rw [hvs]
      exact ⟨htime, rfl⟩
    · rintro ⟨htime, rfl⟩
      exact ⟨t, _, ⟨htime, rfl⟩, rfl, rfl⟩

/-- A series that averages rows shows something when there are rows. -/
theorem AveragesRows.ne_nil_iff {series : List (Binary64 × Binary64)} {average} {rows}
    (h : AveragesRows u average rows series) :
  series ≠ [] ↔ rows ≠ []
  := by
  constructor
  · intro hne
    obtain ⟨⟨t, v⟩, hmem⟩ := List.exists_mem_of_ne_nil _ hne
    obtain ⟨⟨row, hrow, -⟩, -⟩ := (h.mem_iff t v).mp hmem
    apply List.ne_nil_of_mem hrow
  · intro hne
    obtain ⟨row, hrow⟩ := List.exists_mem_of_ne_nil _ hne
    apply List.ne_nil_of_mem ((h.mem_iff _ _).mpr ⟨⟨row, hrow, rfl⟩, rfl⟩)

end

/-! ## The cell -/

section

variable {u : Unicode} {average : List Binary64 → Binary64} {rows : List TsvRow}
variable {engine workload metric : Str}

/-- The picked rows. -/
def pickedRows (rows : List TsvRow) (engine workload metric : Str) : List TsvRow :=
  rows.filter (fun row => Picked engine workload metric row)

/-- The picked rows are those that are to be picked. -/
theorem mem_pickedRows {row : TsvRow} :
  row ∈ pickedRows rows engine workload metric ↔ row ∈ rows ∧ Picked engine workload metric row
  := by
  rw [pickedRows, List.mem_filter, decide_eq_true_iff]

/-- The greatest thread count and the smallest swept value of the picked rows. -/
structure IsExtrema (u : Unicode) (rows : List TsvRow) (engine workload metric : Str)
    (threads sweepValue : ℤ) : Prop where
  max_threads : ((pickedRows rows engine workload metric).map (rowThreads u)).max? = some threads
  min_sweepValue :
    ((pickedRows rows engine workload metric).map (rowSweepValue u)).min? = some sweepValue

/-- Rows to pick have extrema. -/
theorem exists_isExtrema (u : Unicode) (hsome : pickedRows rows engine workload metric ≠ []) :
  ∃ threads sweepValue, IsExtrema u rows engine workload metric threads sweepValue
  := by
  obtain ⟨threads, hthreads⟩ := Option.isSome_iff_exists.mp
    (List.isSome_max?_iff.mpr (List.map_eq_nil_iff (f := rowThreads u) |>.not.mpr hsome))
  obtain ⟨sweepValue, hsweep⟩ := Option.isSome_iff_exists.mp
    (List.isSome_min?_iff.mpr (List.map_eq_nil_iff (f := rowSweepValue u) |>.not.mpr hsome))
  exact ⟨threads, sweepValue, hthreads, hsweep⟩

/-- The series reads the picked rows. -/
theorem filterM_isPicked (h : ∀ row ∈ rows, IsTimelineRow u row) :
  rows.filterM (isPicked engine workload metric) = some (pickedRows rows engine workload metric)
  := Text.filterM_eq_some (fun row hrow => isPicked_eq (h row hrow) engine workload metric)

/-- Without a row to pick there is nothing to show. -/
theorem tlSeries_eq_nil (h : ∀ row ∈ rows, IsTimelineRow u row)
    (hnone : pickedRows rows engine workload metric = []) :
  tlSeries u average rows engine workload metric = some []
  := by
  rw [tlSeries, filterM_isPicked h, hnone]
  rfl

/-- With rows to pick, the series averages the rows of the cell of the extrema. -/
theorem tlSeries_eq (h : ∀ row ∈ rows, IsTimelineRow u row)
    (hsome : pickedRows rows engine workload metric ≠ []) {threads sweepValue : ℤ}
    (hext : IsExtrema u rows engine workload metric threads sweepValue) :
  tlSeries u average rows engine workload metric
    = some (averages average ((cellRows u rows engine workload metric threads sweepValue).map
        (sampleOf u)))
  := by
  have hpicked : ∀ row ∈ pickedRows rows engine workload metric, IsTimelineRow u row :=
    fun row hrow => h row (mem_pickedRows.mp hrow).1
  have hthreads : (pickedRows rows engine workload metric).mapM (rowInt u "threads")
      = some ((pickedRows rows engine workload metric).map (rowThreads u)) :=
    Text.mapM_eq_some (fun row hrow => rowInt_threads (hpicked row hrow))
  have hsweep : (pickedRows rows engine workload metric).mapM (rowInt u "sweep_value")
      = some ((pickedRows rows engine workload metric).map (rowSweepValue u)) :=
    Text.mapM_eq_some (fun row hrow => rowInt_sweepValue (hpicked row hrow))
  have hcell : (pickedRows rows engine workload metric).filterM (inCell u threads sweepValue)
      = some (cellRows u rows engine workload metric threads sweepValue) := by
    rw [Text.filterM_eq_some (fun row hrow => inCell_eq (hpicked row hrow) threads sweepValue),
      pickedRows, List.filter_filter, cellRows]
    congr 2
    funext row
    rw [Bool.and_comm, Bool.decide_and (Picked engine workload metric row)]
  have hsamples : (cellRows u rows engine workload metric threads sweepValue).mapM (rowSample u)
      = some ((cellRows u rows engine workload metric threads sweepValue).map (sampleOf u)) :=
    Text.mapM_eq_some (fun row hrow => rowSample_eq (h row (List.mem_of_mem_filter hrow)))
  rw [tlSeries, filterM_isPicked h]
  simp only [Option.bind_eq_bind, Option.bind_some, if_neg hsome, hthreads, hext.max_threads,
    hsweep, hext.min_sweepValue, hcell, hsamples]

/-- The cell of the extrema has rows when a row has both. -/
theorem IsExtrema.cellRows_ne_nil_iff {threads sweepValue : ℤ}
    (hext : IsExtrema u rows engine workload metric threads sweepValue) :
  cellRows u rows engine workload metric threads sweepValue ≠ []
    ↔ ∃ row ∈ rows, Picked engine workload metric row ∧
        ∀ row' ∈ rows, Picked engine workload metric row' →
          rowThreads u row' ≤ rowThreads u row ∧ rowSweepValue u row ≤ rowSweepValue u row'
  := by
  obtain ⟨hmost, hle⟩ := List.max?_eq_some_iff.mp hext.max_threads
  obtain ⟨hleast, hge⟩ := List.min?_eq_some_iff.mp hext.min_sweepValue
  rw [List.forall_mem_map] at hle hge
  constructor
  · intro hne
    obtain ⟨row, hmem⟩ := List.exists_mem_of_ne_nil _ hne
    obtain ⟨hrow, hcell⟩ := List.mem_filter.mp hmem
    obtain ⟨hpick, hthreads, hsweep⟩ := of_decide_eq_true hcell
    refine ⟨row, hrow, hpick, fun row' hrow' hpick' => ?_⟩
    have hmem' := mem_pickedRows.mpr ⟨hrow', hpick'⟩
    rw [hthreads, hsweep]
    exact ⟨hle row' hmem', hge row' hmem'⟩
  · rintro ⟨row, hrow, hpick, hbounds⟩
    obtain ⟨most, hmost, hthreads⟩ := List.mem_map.mp hmost
    obtain ⟨least, hleast, hsweep⟩ := List.mem_map.mp hleast
    obtain ⟨hmost, hpick₁⟩ := mem_pickedRows.mp hmost
    obtain ⟨hleast, hpick₂⟩ := mem_pickedRows.mp hleast
    have hmem := mem_pickedRows.mpr ⟨hrow, hpick⟩
    have hrowThreads : rowThreads u row = threads :=
      le_antisymm (hle row hmem) (hthreads ▸ (hbounds most hmost hpick₁).1)
    have hrowSweep : rowSweepValue u row = sweepValue :=
      le_antisymm (hsweep ▸ (hbounds least hleast hpick₂).2) (hge row hmem)
    apply List.ne_nil_of_mem
    apply List.mem_filter.mpr ⟨hrow, decide_eq_true ⟨hpick, hrowThreads, hrowSweep⟩⟩

/-- A run is shown when its series is not empty, or nothing is picked. -/
theorem showsRun_of_series {series : List (Binary64 × Binary64)}
    (hseries : tlSeries u average rows engine workload metric = some series)
    (haverages : ∃ threads sweepValue,
      AveragesRows u average (cellRows u rows engine workload metric threads sweepValue) series) :
  ShowsRun u average rows engine workload metric
    ↔ ((∃ row ∈ rows, Picked engine workload metric row) → series ≠ [])
  := by
  constructor
  · rintro ⟨series', hseries', hne, -⟩
    obtain rfl := Option.some_inj.mp (hseries.symm.trans hseries')
    exact hne
  · intro hne
    exact ⟨series, hseries, hne, haverages⟩

/-- Where rows are picked, the run is shown when one of them has both extrema. -/
theorem showsRun_of_picked (h : ∀ row ∈ rows, IsTimelineRow u row)
    (hsome : ∃ row ∈ rows, Picked engine workload metric row) :
  ShowsRun u average rows engine workload metric
    ↔ ∃ row ∈ rows, Picked engine workload metric row ∧
        ∀ row' ∈ rows, Picked engine workload metric row' →
          rowThreads u row' ≤ rowThreads u row ∧ rowSweepValue u row ≤ rowSweepValue u row'
  := by
  have hne : pickedRows rows engine workload metric ≠ [] := by
    obtain ⟨row, hrow⟩ := hsome
    apply List.ne_nil_of_mem (mem_pickedRows.mpr hrow)
  obtain ⟨threads, sweepValue, hext⟩ := exists_isExtrema u hne
  have hseries := averages_averagesRows (u := u) average
    (cellRows u rows engine workload metric threads sweepValue)
  rw [showsRun_of_series (tlSeries_eq h hne hext) ⟨threads, sweepValue, hseries⟩,
    hseries.ne_nil_iff, forall_prop_of_true hsome, hext.cellRows_ne_nil_iff]

/-- Where no row is picked, the run has nothing to show. -/
theorem showsRun_of_not_picked (h : ∀ row ∈ rows, IsTimelineRow u row)
    (hnone : ¬ ∃ row ∈ rows, Picked engine workload metric row) :
  ShowsRun u average rows engine workload metric
  := by
  have hnil : pickedRows rows engine workload metric = [] := by
    apply List.eq_nil_iff_forall_not_mem.mpr
    exact fun row hrow => hnone ⟨row, mem_pickedRows.mp hrow⟩
  have hcell : cellRows u rows engine workload metric 0 0 = [] := by
    apply List.filter_eq_nil_iff.mpr
    intro row hrow hcell
    exact hnone ⟨row, hrow, (of_decide_eq_true hcell).1⟩
  have hempty := averages_averagesRows (u := u) average []
  rw [List.map_nil, averages, Dict.group, List.foldl_nil, List.mergeSort_nil, ← hcell] at hempty
  exact ⟨[], tlSeries_eq_nil h hnil, fun hex => absurd hex hnone, 0, 0, hempty⟩

/-- For every list of timeline rows and every engine, workload and metric, `tl_series` shows the
run if and only if the rows it picks, where there are any, include one with the greatest thread
count and the smallest swept value of them all. -/
theorem showsRun_iff (u : Unicode) (average : List Binary64 → Binary64) (rows : List TsvRow)
    (engine workload metric : Str) (h : ∀ row ∈ rows, IsTimelineRow u row) :
  ShowsRun u average rows engine workload metric
    ↔ ((∃ row ∈ rows, Picked engine workload metric row) →
        ∃ row ∈ rows, Picked engine workload metric row ∧
          ∀ row' ∈ rows, Picked engine workload metric row' →
            rowThreads u row' ≤ rowThreads u row ∧ rowSweepValue u row ≤ rowSweepValue u row')
  := by
  by_cases hsome : ∃ row ∈ rows, Picked engine workload metric row
  · rw [showsRun_of_picked h hsome, forall_prop_of_true hsome]
  · exact ⟨fun _ hex => absurd hex hsome, fun _ => showsRun_of_not_picked h hsome⟩

end

/-! ## Examples -/

/-- A sample of a cell of the skiplist under a swept workload, one second into its run. -/
def valsizeSample (threads : Int32) (sweepValue : Int64) : ReportSample where
  workload := ascii "valsize"
  engine := ascii "skiplist"
  threads := threads
  sweepParam := some (ascii "valuebytes")
  sweepValue := sweepValue
  phase := some (ascii "run")
  elapsedS := 1
  metrics := [⟨ascii "wu_per_s", 1000⟩]

/-- The row of such a sample. -/
def valsizeRow (threads : Int32) (sweepValue : Int64) : TsvRow :=
  timelineRow (valsizeSample threads sweepValue) ⟨ascii "wu_per_s", 1000⟩

/-- The row is picked for its labels, and has the threads and the swept value. -/
theorem valsizeRow_spec (threads : Int32) (sweepValue : Int64) :
  Picked (column "skiplist") (column "valsize") (column "wu_per_s")
    (valsizeRow threads sweepValue) ∧
  rowThreads asciiUnicode (valsizeRow threads sweepValue) = threads.toInt ∧
  rowSweepValue asciiUnicode (valsizeRow threads sweepValue) = sweepValue.toInt
  := by
  refine ⟨?_, ?_, ?_⟩
  · apply (picked_timelineRow _ _ _ _ _).mpr
    have hengine : str (ascii "skiplist") = column "skiplist" := by decide
    have hworkload : str (ascii "valsize") = column "valsize" := by decide
    have hmetric : str (ascii "wu_per_s") = column "wu_per_s" := by decide
    have hphase : str (ascii "run") = column "run" := by decide
    exact ⟨hengine, hworkload, hmetric, hphase⟩
  · rw [rowThreads, valsizeRow, rowInt_timelineRow_threads, Option.getD_some]
    rfl
  · rw [rowSweepValue, valsizeRow, rowInt_timelineRow_sweepValue, Option.getD_some]
    rfl

/-- A single cell is shown. -/
theorem showsRun_iff_example :
  ShowsRun asciiUnicode (fun vs => vs.headD .nan) [valsizeRow 8 256] (column "skiplist")
    (column "valsize") (column "wu_per_s")
  := by
  apply (showsRun_iff _ _ _ _ _ _ _).mpr
  · intro _
    obtain ⟨hpick, -, -⟩ := valsizeRow_spec 8 256
    refine ⟨_, List.mem_singleton_self _, hpick, fun row' hrow' _ => ?_⟩
    rw [List.mem_singleton.mp hrow']
    exact ⟨le_rfl, le_rfl⟩
  · intro row hrow
    rw [List.mem_singleton.mp hrow]
    apply isTimelineRow_timelineRow

/-- When the cell of eight threads and the smallest value has no rows, nothing is shown. -/
theorem showsRun_not :
  (∀ row ∈ [valsizeRow 1 256, valsizeRow 1 1048576, valsizeRow 8 1048576],
    IsTimelineRow asciiUnicode row) ∧
  ¬ ShowsRun asciiUnicode (fun vs => vs.headD .nan)
    [valsizeRow 1 256, valsizeRow 1 1048576, valsizeRow 8 1048576] (column "skiplist")
    (column "valsize") (column "wu_per_s")
  := by
  have hrows : ∀ row ∈ [valsizeRow 1 256, valsizeRow 1 1048576, valsizeRow 8 1048576],
      IsTimelineRow asciiUnicode row := by
    simp only [List.forall_mem_cons, valsizeRow, isTimelineRow_timelineRow, true_and]
    simp
  obtain ⟨hpick, hthreads, hsweep⟩ := valsizeRow_spec 1 256
  obtain ⟨hpick₁, hthreads₁, hsweep₁⟩ := valsizeRow_spec 1 1048576
  obtain ⟨hpick₂, hthreads₂, hsweep₂⟩ := valsizeRow_spec 8 1048576
  refine ⟨hrows, ?_⟩
  rw [showsRun_of_picked hrows ⟨_, List.mem_cons_self, hpick⟩]
  simp [hpick, hthreads, hsweep, hpick₁, hthreads₁, hsweep₁, hpick₂, hthreads₂, hsweep₂]

end Keybench
