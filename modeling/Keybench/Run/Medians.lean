import Keybench.Lib.OrderStatistic
import Keybench.Run.Summary

/-!
# The medians of a summary

The columns of a summary are medians over the repeats of a cell, and the scratch array that a
median leaves sorted has the least and the greatest repeat at its ends.  A summary therefore does
not depend on the order of the repeats (`summarizePoint_perm`), and its columns are the medians of
what the repeats have, nothing for an operation that a repeat does not have (`summarizePoint_spec`).
-/

namespace Keybench

open OrderStatistic

/-! ## The scratch array -/

/-- The order of the numbers does not matter. -/
theorem sortD_perm {xs ys : List ℚ} (h : xs.Perm ys) :
  sortD xs = sortD ys
  := mergeSort_eq_of_perm h

theorem medianD_perm {xs ys : List ℚ} (h : xs.Perm ys) :
  medianD xs = medianD ys
  := by
  rw [medianD, medianD, sortD_perm h, h.length_eq]

theorem rateSpread_perm {xs ys : List ℚ} (h : xs.Perm ys) :
  rateSpread xs = rateSpread ys
  := by
  rw [rateSpread, rateSpread, medianD_perm h, sortD_perm h, h.length_eq]

/-- The sorted array holds the order statistics. -/
theorem orderStatistic_eq_sortD {a : List ℚ} {i : ℕ} (hi : i < a.length) :
  orderStatistic a (i + 1) = some ((sortD a).getD i 0)
  := by
  have hlen : i < (sortD a).length := by
    rw [sortD, List.length_mergeSort]
    apply hi
  rw [List.getD_eq_getElem?_getD, List.getElem?_eq_getElem hlen, Option.getD_some]
  apply List.getElem?_eq_getElem hlen

/-- `median_d` gives the median. -/
theorem isMedian_medianD {a : List ℚ} (hne : a ≠ []) :
  IsMedian a (medianD a)
  := by
  have hpos := List.length_pos_of_ne_nil hne
  rw [medianD, if_neg hpos.ne']
  split_ifs with hodd
  · have hmid : (a.length + 1) / 2 = a.length / 2 + 1 := by omega
    have hstat := orderStatistic_eq_sortD (a := a) (i := a.length / 2) (by omega)
    use (sortD a).getD (a.length / 2) 0, (sortD a).getD (a.length / 2) 0
    rw [hmid]
    and_intros
    · apply hstat
    · apply hstat
    · ring
  · have hmid : (a.length + 1) / 2 = a.length / 2 - 1 + 1 := by omega
    use (sortD a).getD (a.length / 2 - 1) 0, (sortD a).getD (a.length / 2) 0
    rw [hmid]
    and_intros
    · apply orderStatistic_eq_sortD (by omega)
    · apply orderStatistic_eq_sortD (by omega)
    · ring

/-- The rates span some numbers: the least, the greatest and the median of them. -/
structure RateSpread.Spans (s : RateSpread) (xs : List ℚ) : Prop where
  lo : IsLeast {x | x ∈ xs} s.lo
  hi : IsGreatest {x | x ∈ xs} s.hi
  med : IsMedian xs s.med
  lo_le_med : s.lo ≤ s.med
  med_le_hi : s.med ≤ s.hi

/-- The ends of the array that the median leaves behind are the least and the greatest number. -/
theorem rateSpread_spans {xs : List ℚ} (hne : xs ≠ []) :
  (rateSpread xs).Spans xs
  := by
  have hpos := List.length_pos_of_ne_nil hne
  have hlo : IsLeast {x | x ∈ xs} (rateSpread xs).lo :=
    isLeast_of_orderStatistic (orderStatistic_eq_sortD hpos)
  have hhi : IsGreatest {x | x ∈ xs} (rateSpread xs).hi := by
    apply isGreatest_of_orderStatistic hne
    have hlast := orderStatistic_eq_sortD (Nat.sub_lt hpos Nat.one_pos)
    rw [Nat.sub_add_cancel hpos] at hlast
    apply hlast
  have hmed : IsMedian xs (rateSpread xs).med := isMedian_medianD hne
  obtain ⟨hle, hge⟩ := hmed.mem_Icc hne hlo.2 hhi.2
  exact ⟨hlo, hhi, hmed, hle, hge⟩

/-! ## The order of the repeats -/

section Perm

variable {rs rs' : List PointResult} (h : rs.Perm rs')

include h

theorem reportOp_perm (op : KvOp) :
  reportOp rs op = reportOp rs' op
  := by
  simp only [reportOp, medianD_perm (h.map _)]

theorem reportRate_perm (asked part total : OpStats → ℕ) :
  reportRate asked part total rs = reportRate asked part total rs'
  := by
  rw [reportRate, reportRate, medianD_perm (h.map _), h.any_eq]

theorem perSecond_perm (amount : PointResult → ℕ) :
  (perSecond amount rs).Perm (perSecond amount rs')
  := h.map _

theorem overallPercentile_perm (p : ℚ) :
  overallPercentile p rs = overallPercentile p rs'
  := by
  rw [overallPercentile, overallPercentile, medianD_perm (h.map _)]

/-- A summary does not depend on the order of the repeats, when they have one engine. -/
theorem summarizePoint_perm {engine : Option Bytes} (hengine : ∀ r ∈ rs, r.engine = engine)
    (name : Bytes) (threads : Int32) (sweepParam : Option Bytes) (sweepValue : ℤ) :
  summarizePoint name rs threads sweepParam sweepValue
    = summarizePoint name rs' threads sweepParam sweepValue
  := by
  have hhead : rs.head?.bind PointResult.engine = rs'.head?.bind PointResult.engine := by
    cases rs with
    | nil => rw [h.nil_eq]
    | cons r rs =>
      cases rs' with
      | nil => cases h.eq_nil
      | cons r' rs' =>
        have hr' : r' ∈ r :: rs := h.mem_iff.mpr List.mem_cons_self
        change r.engine = r'.engine
        rw [hengine r List.mem_cons_self, hengine r' hr']
  have hcounts : ∀ op, (rs.map fun r => (r.stats.h op).count).sum
      = (rs'.map fun r => (r.stats.h op).count).sum := fun op => (h.map _).sum_eq
  have hops : reportOp rs = reportOp rs' := funext (reportOp_perm h)
  simp only [summarizePoint, hhead, hcounts, hops, reportRate_perm h, h.length_eq,
    rateSpread_perm (perSecond_perm h _), overallPercentile_perm h]

end Perm

/-! ## The columns of an operation -/

/-- The result of a repeat of a cell with an engine: its statistics hold what its workers have
recorded. -/
structure CellResult (engine : Option Bytes) (r : PointResult) : Prop where
  engine : r.engine = engine
  recorded : ∃ events, r.stats = statsOf events

/-- The statistics of a worker hold what it has recorded. -/
theorem workerStats_timedRun {toUInt64 : Binary64 → UInt64} {cfg : RunConfig} {threads : Int32}
    {es : List (Fin (nthreads threads) × WorkerEvent)} {ws : Fin (nthreads threads) → TimedWorker}
    (hrun : timedRun toUInt64 cfg threads es = some ws) (t : Fin (nthreads threads)) :
  ∃ events, (ws t).stats = workerStats events
  := by
  apply Interleave.run_induct (P := fun _ w => ∃ events, w.stats = workerStats events)
    ((Interleave.run_stepAt_iff _ _ es).mp hrun t)
  · exact ⟨[], rfl⟩
  · rintro _ w e w' ⟨events, hevents⟩ hstep
    cases workerStep_move hstep with
    | verb e h =>
      use events ++ [e]
      rw [workerStats, List.foldl_append, ← workerStats, ← hevents]
      rfl
    | _ => exact ⟨events, hevents⟩

/-- The result of a timed phase is that of a repeat. -/
theorem cellResult_measureTimed {toUInt64 : Binary64 → UInt64} {cfg : RunConfig} {threads : Int32}
    {es : List (Fin (nthreads threads) × WorkerEvent)} {ws : Fin (nthreads threads) → TimedWorker}
    (hrun : timedRun toUInt64 cfg threads es = some ws) (engine : Option Bytes) (wall : ℚ) :
  CellResult engine (measureTimed engine wall (List.ofFn ws))
  := by
  constructor
  case engine => rfl
  case recorded =>
    choose events hevents using workerStats_timedRun hrun
    use (List.ofFn events).flatten
    rw [← measureStats_workerStats, List.map_ofFn]
    change measureStats ((List.ofFn ws).map TimedWorker.stats) = _
    rw [List.map_ofFn]
    congr 2
    funext t
    apply hevents

/-- An operation that a repeat does not have has nothing in its columns. -/
theorem CellResult.absent {engine : Option Bytes} {r : PointResult} (h : CellResult engine r)
    {op : KvOp} (hcount : (r.stats.h op).count = 0) :
  (∀ p, histPercentile (r.stats.h op) p = 0) ∧ (r.stats.h op).max = 0
  := by
  constructor
  · intro p
    rw [histPercentile, if_pos hcount]
  · obtain ⟨events, hevents⟩ := h.recorded
    rw [hevents] at hcount ⊢
    have hnone : events.filterMap (StatsEvent.sample op) = [] := List.length_eq_zero_iff.mp hcount
    change (histOf (events.filterMap (StatsEvent.sample op))).max = 0
    rw [hnone]
    rfl

/-- The columns of an operation are the medians over some repeats, as integers: a count is rounded
to the nearest one, and a latency is cut. -/
structure ReportOp.Medians (o : ReportOp) (rs : List PointResult) : Prop where
  count : ∃ m, IsMedian (rs.map fun r => ((r.stats.h o.op).count : ℚ)) m ∧
    o.count = ratToUInt64 (m + 1 / 2)
  p50 : ∃ m, IsMedian (rs.map fun r => ratOfUInt64 (histPercentile (r.stats.h o.op) 50)) m ∧
    o.p50 = ratToUInt64 m
  p99 : ∃ m, IsMedian (rs.map fun r => ratOfUInt64 (histPercentile (r.stats.h o.op) 99)) m ∧
    o.p99 = ratToUInt64 m
  p999 : ∃ m, IsMedian (rs.map fun r => ratOfUInt64 (histPercentile (r.stats.h o.op) (999 / 10)))
    m ∧ o.p999 = ratToUInt64 m
  max : ∃ m, IsMedian (rs.map fun r => ratOfUInt64 (r.stats.h o.op).max) m ∧
    o.max = ratToUInt64 m

theorem reportOp_medians {rs : List PointResult} (hne : rs ≠ []) (op : KvOp) :
  (reportOp rs op).Medians rs
  := by
  have hmed : ∀ f : PointResult → ℚ, IsMedian (rs.map f) (medianD (rs.map f)) :=
    fun f => isMedian_medianD (List.map_eq_nil_iff.not.mpr hne)
  exact ⟨⟨_, hmed _, rfl⟩, ⟨_, hmed _, rfl⟩, ⟨_, hmed _, rfl⟩, ⟨_, hmed _, rfl⟩, ⟨_, hmed _, rfl⟩⟩

/-- A summary has the operations that some repeat has. -/
theorem summarizePoint_ops (name : Bytes) (rs : List PointResult) (threads : Int32)
    (sweepParam : Option Bytes) (sweepValue : ℤ) :
  (summarizePoint name rs threads sweepParam sweepValue).2.ops
    = (kvOps.filter fun op => rs.any fun r => (r.stats.h op).count ≠ 0).map (reportOp rs)
  := by
  have hsome : ∀ op, decide ((rs.map fun r => (r.stats.h op).count).sum ≠ 0)
      = rs.any fun r => (r.stats.h op).count ≠ 0 := by
    intro op
    rw [Bool.eq_iff_iff, decide_eq_true_iff, ne_eq, List.sum_eq_zero_iff_forall_eq_nat]
    simp
  simp only [summarizePoint, hsome]
  -- There is room for all kinds of operations.
  rw [List.take_of_length_le]
  apply (List.length_filter_le _ kvOps).trans
  decide

/-- For any number of repeats of a cell, in any order, a summary is the same.  Its rates are the
least, the greatest and the median of those of the repeats.  It has the operations that some repeat
has, and their columns are the medians of what the repeats have, which is nothing in a repeat that
does not have the operation. -/
theorem summarizePoint_spec {rs : List PointResult} {engine : Option Bytes} (hne : rs ≠ [])
    (hcell : ∀ r ∈ rs, CellResult engine r) (name : Bytes) (threads : Int32)
    (sweepParam : Option Bytes) (sweepValue : ℤ) :
  let out := summarizePoint name rs threads sweepParam sweepValue
  (∀ rs', rs.Perm rs' → summarizePoint name rs' threads sweepParam sweepValue = out) ∧
    (out.2.wu.Spans (perSecond PointResult.units rs) ∧ out.1.wuS = out.2.wu.med) ∧
    (out.2.opsRate.Spans (perSecond (fun r => r.stats.primOps) rs) ∧
      out.1.opsS = out.2.opsRate.med) ∧
    out.2.ops.map ReportOp.op
      = (kvOps.filter fun op => rs.any fun r => (r.stats.h op).count ≠ 0) ∧
    (∀ o ∈ out.2.ops, o.Medians rs) ∧
    ∀ r ∈ rs, ∀ op, (r.stats.h op).count = 0 →
      (∀ p, histPercentile (r.stats.h op) p = 0) ∧ (r.stats.h op).max = 0
  := by
  have hrates : ∀ amount, perSecond amount rs ≠ [] :=
    fun amount => List.map_eq_nil_iff.not.mpr hne
  and_intros
  · intro rs' hperm
    apply (summarizePoint_perm hperm (fun r hr => (hcell r hr).engine) _ _ _ _).symm
  · apply rateSpread_spans (hrates _)
  · rfl
  · apply rateSpread_spans (hrates _)
  · rfl
  · rw [summarizePoint_ops, List.map_map]
    apply List.map_id
  · intro o ho
    rw [summarizePoint_ops] at ho
    obtain ⟨op, -, rfl⟩ := List.mem_map.mp ho
    apply reportOp_medians hne
  · intro r hr op hcount
    apply (hcell r hr).absent hcount

/-- A repeat of one second. -/
def oneSecond (units : ℕ) (events : List StatsEvent) : PointResult where
  stats := statsOf events
  units := units
  wall := 1
  engine := none
  ok := true

/-- Two repeats, one of them without the operation of the other. -/
theorem summarizePoint_spec_example :
  summarizePoint [] [oneSecond 1 [], oneSecond 3 [.latency .put 5]] 1 none 0
      = summarizePoint [] [oneSecond 3 [.latency .put 5], oneSecond 1 []] 1 none 0 ∧
    (summarizePoint [] [oneSecond 3 [.latency .put 5], oneSecond 1 []] 1 none 0).2.wu.Spans
      (perSecond PointResult.units [oneSecond 3 [.latency .put 5], oneSecond 1 []])
  := by
  have hcell : ∀ r ∈ [oneSecond 3 [.latency .put 5], oneSecond 1 []], CellResult none r := by
    intro r hr
    simp only [List.mem_cons, List.not_mem_nil, or_false] at hr
    rcases hr with rfl | rfl
    · exact ⟨rfl, _, rfl⟩
    · exact ⟨rfl, _, rfl⟩
  obtain ⟨hperm, ⟨hspans, -⟩, -⟩ := summarizePoint_spec (List.cons_ne_nil _ _) hcell [] 1 none 0
  constructor
  · apply hperm
    apply List.Perm.swap
  · apply hspans

end Keybench
