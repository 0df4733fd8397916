import Keybench.Run.Summary

/-!
# The tsv and timeline reporters

`tsv_point` prints a header before the first point, and a line for each operation of a point.
`timeline_sample` prints a header before the first sample, and a line for each metric of a sample.
-/

namespace Keybench

/-- `op_name`. -/
def opName : KvOp → Bytes
  | .put => ascii "put"
  | .get => ascii "get"
  | .del => ascii "del"
  | .range => ascii "range"
  | .mget => ascii "mget"
  | .mput => ascii "mput"
  | .mdel => ascii "mdel"

/-- The names of the columns. -/
def tsvColumns : List Bytes :=
  ["workload", "engine", "threads", "sweep_param", "sweep_value", "op", "count", "p50_ns",
    "p99_ns", "p999_ns", "max_ns", "hit_rate", "err_rate", "wu_per_s", "ops_per_s"].map ascii

/-- A text printed with `%s`. -/
def fmtStr (s : Option Bytes) : Bytes := s.getD (ascii "(null)")

/-- The swept value of a point, one when nothing is swept. -/
def ReportPoint.printedValue (p : ReportPoint) : ℤ :=
  if p.sweepParam.isSome then p.sweepValue else 1

/-- The cells of an operation of a point. -/
def tsvCells (p : ReportPoint) (o : ReportOp) : List Bytes :=
  [p.workload, fmtStr p.engine, fmtInt p.threads.toInt, p.sweepParam.getD [], fmtInt p.printedValue,
    opName o.op, fmtNat o.count.toNat, fmtNat o.p50.toNat, fmtNat o.p99.toNat, fmtNat o.p999.toNat,
    fmtNat o.max.toNat, fmtFixed 3 (p.hitRate.getD 0), fmtFixed 3 (p.errRate.getD 0),
    fmtFixed 1 p.wu.med, fmtFixed 1 p.opsRate.med]

/-- A line of cells. -/
def tsvLine (cells : List Bytes) : Bytes := [chr '\t'].intercalate cells ++ [chr '\n']

/-- `tsv_point`: whether the header is printed after it, and what it prints. -/
def tsvPoint (headerDone : Bool) (p : ReportPoint) : Bool × Bytes :=
  (true, (if headerDone then [] else tsvLine tsvColumns)
    ++ p.ops.flatMap (fun o => tsvLine (tsvCells p o)))

/-- What the reporter prints for points. -/
def tsvText (ps : List ReportPoint) : Bytes :=
  (ps.foldl (fun st p => ((tsvPoint st.1 p).1, st.2 ++ (tsvPoint st.1 p).2)) (false, [])).2

/-- The operations of points, each with its point. -/
def pointOps (ps : List ReportPoint) : List (ReportPoint × ReportOp) :=
  ps.flatMap (fun p => p.ops.map (fun o => (p, o)))

/-- What is printed for a list after the header. -/
theorem foldl_headed {α : Type*} (header : Bytes) (body : α → Bytes) (xs : List α) (text : Bytes) :
  xs.foldl (fun st x => (true, st.2 ++ ((if st.1 then [] else header) ++ body x))) (true, text)
    = (true, text ++ xs.flatMap body)
  := by
  induction xs generalizing text with
  | nil => rw [List.foldl_nil, List.flatMap_nil, List.append_nil]
  | cons x xs ih =>
    rw [List.foldl_cons, if_pos rfl, List.nil_append, ih, List.flatMap_cons, List.append_assoc]

/-- What is printed for a list when a header is printed before its first element. -/
theorem foldl_headed_cons {α : Type*} (header : Bytes) (body : α → Bytes) (x : α) (xs : List α) :
  (x :: xs).foldl (fun st x => (true, st.2 ++ ((if st.1 then [] else header) ++ body x)))
      (false, [])
    = (true, header ++ (x :: xs).flatMap body)
  := by
  rw [List.foldl_cons, if_neg Bool.false_ne_true, List.nil_append, foldl_headed, List.flatMap_cons,
    List.append_assoc]

/-- The header is printed first, then a line for each operation of each point. -/
theorem tsvText_cons (p : ReportPoint) (ps : List ReportPoint) :
  tsvText (p :: ps)
    = (tsvColumns :: (pointOps (p :: ps)).map (fun po => tsvCells po.1 po.2)).flatMap tsvLine
  := by
  have hfold := foldl_headed_cons (tsvLine tsvColumns)
    (fun p : ReportPoint => p.ops.flatMap (fun o => tsvLine (tsvCells p o))) p ps
  have hlines : (pointOps (p :: ps)).flatMap (fun po => tsvLine (tsvCells po.1 po.2))
      = (p :: ps).flatMap (fun p => p.ops.flatMap (fun o => tsvLine (tsvCells p o))) := by
    rw [pointOps, List.flatMap_assoc]
    simp only [List.flatMap_map]
  rw [List.flatMap_cons, List.flatMap_map, hlines]
  exact congrArg Prod.snd hfold

/-! ## The timeline reporter -/

/-- `sample_metric`. -/
structure SampleMetric where
  /-- `name`. -/
  name : Bytes
  /-- `value`. -/
  value : ℚ

/-- `report_sample`. -/
structure ReportSample where
  /-- `workload`. -/
  workload : Bytes
  /-- `engine`. -/
  engine : Bytes
  /-- `threads`. -/
  threads : Int32
  /-- `sweep_param`. -/
  sweepParam : Option Bytes
  /-- `sweep_value`. -/
  sweepValue : Int64
  /-- `phase`. -/
  phase : Option Bytes
  /-- `elapsed_s`. -/
  elapsedS : ℚ
  /-- `m`. -/
  metrics : List SampleMetric

/-- The names of the columns of the timeline. -/
def timelineColumns : List Bytes :=
  ["workload", "engine", "threads", "sweep_param", "sweep_value", "phase", "elapsed_s", "metric",
    "value"].map ascii

/-- The swept value of a sample, one when nothing is swept. -/
def ReportSample.printedValue (s : ReportSample) : ℤ :=
  if s.sweepParam.isSome then s.sweepValue.toInt else 1

/-- The cells of a metric of a sample. -/
def timelineCells (s : ReportSample) (m : SampleMetric) : List Bytes :=
  [s.workload, s.engine, fmtInt s.threads.toInt, s.sweepParam.getD [], fmtInt s.printedValue,
    s.phase.getD (ascii "run"), fmtFixed 3 s.elapsedS, m.name, fmtFixed 3 m.value]

/-- `timeline_sample`: whether the header is printed after it, and what it prints. -/
def timelineSample (headerDone : Bool) (s : ReportSample) : Bool × Bytes :=
  (true, (if headerDone then [] else tsvLine timelineColumns)
    ++ s.metrics.flatMap (fun m => tsvLine (timelineCells s m)))

/-- What the reporter prints for samples. -/
def timelineText (ss : List ReportSample) : Bytes :=
  (ss.foldl (fun st s => ((timelineSample st.1 s).1, st.2 ++ (timelineSample st.1 s).2))
    (false, [])).2

/-- The metrics of samples, each with its sample. -/
def sampleMetrics (ss : List ReportSample) : List (ReportSample × SampleMetric) :=
  ss.flatMap (fun s => s.metrics.map (fun m => (s, m)))

/-- The header is printed first, then a line for each metric of each sample. -/
theorem timelineText_cons (s : ReportSample) (ss : List ReportSample) :
  timelineText (s :: ss)
    = (timelineColumns :: (sampleMetrics (s :: ss)).map
        (fun sm => timelineCells sm.1 sm.2)).flatMap tsvLine
  := by
  have hfold := foldl_headed_cons (tsvLine timelineColumns)
    (fun s : ReportSample => s.metrics.flatMap (fun m => tsvLine (timelineCells s m))) s ss
  have hlines : (sampleMetrics (s :: ss)).flatMap (fun sm => tsvLine (timelineCells sm.1 sm.2))
      = (s :: ss).flatMap (fun s => s.metrics.flatMap (fun m => tsvLine (timelineCells s m))) := by
    rw [sampleMetrics, List.flatMap_assoc]
    simp only [List.flatMap_map]
  rw [List.flatMap_cons, List.flatMap_map, hlines]
  exact congrArg Prod.snd hfold

end Keybench
