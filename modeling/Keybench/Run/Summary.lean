import Keybench.Run.Workers

/-!
# The summary of a point

`summarizePoint` takes the results of the repeats of a point and gives the row of the summary and
the point for the reporters.  Floating-point numbers are rational numbers here, and the operations
on them are exact.
-/

namespace Keybench

/-- The kinds of operations, in order. -/
def kvOps : List KvOp := [.put, .get, .del, .range, .mget, .mput, .mdel]

/-- `REPORT_MAX_OPS`. -/
def reportMaxOps : ℕ := 8

/-- `report_op`. -/
structure ReportOp where
  /-- `op`. -/
  op : KvOp
  /-- `count`. -/
  count : UInt64
  /-- `p50`. -/
  p50 : UInt64
  /-- `p99`. -/
  p99 : UInt64
  /-- `p999`. -/
  p999 : UInt64
  /-- `max`. -/
  max : UInt64
deriving DecidableEq

/-- The median, the least and the greatest of the repeats. -/
structure RateSpread where
  /-- `wu_med`, `ops_med`. -/
  med : ℚ
  /-- `wu_lo`, `ops_lo`. -/
  lo : ℚ
  /-- `wu_hi`, `ops_hi`. -/
  hi : ℚ
deriving DecidableEq

/-- `report_point`. -/
structure ReportPoint where
  /-- `workload`. -/
  workload : Bytes
  /-- `engine`. -/
  engine : Option Bytes
  /-- `threads`. -/
  threads : Int32
  /-- `repeat`. -/
  repeats : ℕ
  /-- `sweep_param`. -/
  sweepParam : Option Bytes
  /-- `sweep_value`. -/
  sweepValue : ℤ
  /-- `ops`. -/
  ops : List ReportOp
  /-- `hit_rate`, when `has_hit` is set. -/
  hitRate : Option ℚ
  /-- `err_rate`, when `has_err` is set. -/
  errRate : Option ℚ
  /-- `wu_med`, `wu_lo` and `wu_hi`. -/
  wu : RateSpread
  /-- `ops_med`, `ops_lo` and `ops_hi`. -/
  opsRate : RateSpread
  /-- `overall_p50`. -/
  overallP50 : UInt64
  /-- `overall_p99`. -/
  overallP99 : UInt64
deriving DecidableEq

/-- `summary_row`. -/
structure SummaryRow where
  /-- `engine`. -/
  engine : Option Bytes
  /-- `threads`. -/
  threads : Int32
  /-- `sweep_value`. -/
  sweepValue : ℤ
  /-- `wu_s`. -/
  wuS : ℚ
  /-- `ops_s`. -/
  opsS : ℚ
  /-- `p50`. -/
  p50 : ℚ
  /-- `p99`. -/
  p99 : ℚ
deriving DecidableEq

/-- An array after `qsort` with `cmp_d`. -/
def sortD (a : List ℚ) : List ℚ := a.mergeSort (· ≤ ·)

/-- `median_d`. -/
def medianD (a : List ℚ) : ℚ :=
  let n := a.length
  let a := sortD a
  if n = 0 then 0
  else if n % 2 = 1 then a.getD (n / 2) 0
  else 1 / 2 * (a.getD (n / 2 - 1) 0 + a.getD (n / 2) 0)

/-- The median of an array, with its first and last number after sorting. -/
def rateSpread (a : List ℚ) : RateSpread where
  med := medianD a
  lo := (sortD a).getD 0 0
  hi := (sortD a).getD (a.length - 1) 0

/-- The conversion of a `double` to `uint64_t`. -/
def ratToUInt64 (q : ℚ) : UInt64 := UInt64.ofNat ⌊q⌋₊

/-- The conversion of a `uint64_t` to `double`. -/
def ratOfUInt64 (n : UInt64) : ℚ := n.toNat

/-- The columns of a kind of operation. -/
def reportOp (rs : List PointResult) (op : KvOp) : ReportOp where
  op := op
  count := ratToUInt64 (medianD (rs.map fun r => ((r.stats.h op).count : ℚ)) + 1 / 2)
  p50 := ratToUInt64 (medianD (rs.map fun r => ratOfUInt64 (histPercentile (r.stats.h op) 50)))
  p99 := ratToUInt64 (medianD (rs.map fun r => ratOfUInt64 (histPercentile (r.stats.h op) 99)))
  p999 := ratToUInt64
    (medianD (rs.map fun r => ratOfUInt64 (histPercentile (r.stats.h op) (999 / 10))))
  max := ratToUInt64 (medianD (rs.map fun r => ratOfUInt64 (r.stats.h op).max))

/-- The median over the repeats of the percentage that a part makes of a total, when some repeat
has a counter that asks for it. -/
def reportRate (asked part total : OpStats → ℕ) (rs : List PointResult) : Option ℚ :=
  if rs.any fun r => asked r.stats > 0 then
    some (medianD (rs.map fun r =>
      if total r.stats > 0 then 100 * (part r.stats : ℚ) / total r.stats else 0))
  else none

/-- A rate of each repeat. -/
def perSecond (amount : PointResult → ℕ) (rs : List PointResult) : List ℚ :=
  rs.map fun r => if r.wall > 0 then amount r / r.wall else 0

/-- A percentile of all operations together. -/
def overallPercentile (p : ℚ) (rs : List PointResult) : UInt64 :=
  ratToUInt64 (medianD (rs.map fun r =>
    ratOfUInt64 (histPercentile (kvOps.foldl (fun all op => histMerge all (r.stats.h op)) histReset)
      p)))

/-- `summarize_point`: the row of the summary, and the point for the reporters. -/
def summarizePoint (name : Bytes) (rs : List PointResult) (threads : Int32)
    (sweepParam : Option Bytes) (sweepValue : ℤ) : SummaryRow × ReportPoint :=
  let engine := rs.head?.bind PointResult.engine
  let rp :=
    { workload := name
      engine := engine
      threads := threads
      repeats := rs.length
      sweepParam := sweepParam
      sweepValue := sweepValue
      ops := ((kvOps.filter fun op => (rs.map fun r => (r.stats.h op).count).sum ≠ 0).take
        reportMaxOps).map (reportOp rs)
      hitRate := reportRate (fun s => s.getHits + s.getMisses) OpStats.getHits
        (fun s => s.getHits + s.getMisses) rs
      errRate := reportRate OpStats.getErrors OpStats.getErrors
        (fun s => s.getHits + s.getMisses + s.getErrors) rs
      wu := rateSpread (perSecond PointResult.units rs)
      opsRate := rateSpread (perSecond (fun r => r.stats.primOps) rs)
      overallP50 := overallPercentile 50 rs
      overallP99 := overallPercentile 99 rs : ReportPoint }
  let row :=
    { engine := engine
      threads := threads
      sweepValue := sweepValue
      wuS := rp.wu.med
      opsS := rp.opsRate.med
      p50 := ratOfUInt64 rp.overallP50
      p99 := ratOfUInt64 rp.overallP99 : SummaryRow }
  (row, rp)

end Keybench
