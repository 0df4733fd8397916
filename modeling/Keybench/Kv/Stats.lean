import Keybench.Hist.Samples

/-!
# Statistics of a worker

`OpStats` are the histograms and counters a worker keeps, one histogram for each kind of
operation.  `statsOf events` are the statistics that hold a list of recorded events, and
resetting, recording and merging statistics are the empty list, an added event and
concatenation.  Merging the workers' statistics therefore loses and double-counts nothing:
it gives what one worker would hold (`measureStats_shards`).
-/

namespace Keybench

/-- The kinds of operations. -/
inductive KvOp where
  | put
  | get
  | del
  | range
  | mget
  | mput
  | mdel
deriving DecidableEq

/-- The statistics of a worker. -/
structure OpStats where
  /-- The latencies of each kind of operation. -/
  h : KvOp → Hist
  /-- The primitive operations. -/
  primOps : ℕ
  /-- The lookups that found their key. -/
  getHits : ℕ
  /-- The lookups that did not find their key. -/
  getMisses : ℕ
  /-- The lookups the engine failed. -/
  getErrors : ℕ

/-- `stats_reset`. -/
def statsReset : OpStats where
  h _ := histReset
  primOps := 0
  getHits := 0
  getMisses := 0
  getErrors := 0

/-- `stats_merge`. -/
def statsMerge (dst src : OpStats) : OpStats where
  h op := histMerge (dst.h op) (src.h op)
  primOps := dst.primOps + src.primOps
  getHits := dst.getHits + src.getHits
  getMisses := dst.getMisses + src.getMisses
  getErrors := dst.getErrors + src.getErrors

/-- What a worker records. -/
inductive StatsEvent where
  /-- A call of a kind of operation took some nanoseconds. -/
  | latency (op : KvOp) (ns : UInt64)
  /-- Some primitive operations. -/
  | prim (n : ℕ)
  /-- A lookup found its key. -/
  | hit
  /-- A lookup did not find its key. -/
  | miss
  /-- The engine failed a lookup. -/
  | error
deriving DecidableEq

/-- Record an event. -/
def statsRecord (s : OpStats) : StatsEvent → OpStats
  | .latency op ns => { s with h := Function.update s.h op (histRecord (s.h op) ns) }
  | .prim n => { s with primOps := s.primOps + n }
  | .hit => { s with getHits := s.getHits + 1 }
  | .miss => { s with getMisses := s.getMisses + 1 }
  | .error => { s with getErrors := s.getErrors + 1 }

/-- The statistics of a worker, reset at its start, after the events it records. -/
def workerStats (events : List StatsEvent) : OpStats :=
  events.foldl statsRecord statsReset

/-- The loop of `measure_timed` over the workers that have ended. -/
def measureStats (ws : List OpStats) : OpStats :=
  ws.foldl statsMerge statsReset

/-! ## Statistics of events -/

/-- The sample an event adds to a kind of operation. -/
def StatsEvent.sample (op : KvOp) : StatsEvent → Option UInt64
  | .latency op' ns => if op' = op then some ns else none
  | _ => none

/-- The primitive operations of an event. -/
def StatsEvent.prims : StatsEvent → ℕ
  | .prim n => n
  | _ => 0

/-- The statistics of a list of events. -/
def statsOf (events : List StatsEvent) : OpStats where
  h op := histOf (events.filterMap (StatsEvent.sample op))
  primOps := (events.map StatsEvent.prims).sum
  getHits := events.count .hit
  getMisses := events.count .miss
  getErrors := events.count .error

theorem statsReset_eq :
  statsReset = statsOf []
  := rfl

/-- Recording adds an event. -/
theorem statsRecord_statsOf (events : List StatsEvent) (e : StatsEvent) :
  statsRecord (statsOf events) e = statsOf (e :: events)
  := by
  cases e with
  | latency op ns =>
    simp only [statsRecord, statsOf, histRecord_histOf, OpStats.mk.injEq]
    and_intros
    · funext op'
      by_cases h : op = op'
      · subst h
        rw [Function.update_self, List.filterMap_cons_some]
        simp [StatsEvent.sample]
      · rw [Function.update_of_ne (Ne.symm h), List.filterMap_cons_none]
        simp [StatsEvent.sample, h]
    · simp [StatsEvent.prims]
    · simp
    · simp
    · simp
  | prim n =>
    simp [statsRecord, statsOf, StatsEvent.sample, StatsEvent.prims, List.filterMap_cons,
      Nat.add_comm]
  | hit =>
    simp [statsRecord, statsOf, StatsEvent.sample, StatsEvent.prims, List.filterMap_cons]
  | miss =>
    simp [statsRecord, statsOf, StatsEvent.sample, StatsEvent.prims, List.filterMap_cons]
  | error =>
    simp [statsRecord, statsOf, StatsEvent.sample, StatsEvent.prims, List.filterMap_cons]

/-- Merging concatenates the events. -/
theorem statsMerge_statsOf (xs ys : List StatsEvent) :
  statsMerge (statsOf xs) (statsOf ys) = statsOf (xs ++ ys)
  := by
  simp only [statsMerge, statsOf, histMerge_histOf, List.filterMap_append, List.map_append,
    List.sum_append, List.count_append]

/-- The order of the events does not matter. -/
theorem statsOf_perm {xs ys : List StatsEvent} (h : xs.Perm ys) :
  statsOf xs = statsOf ys
  := by
  simp only [statsOf, OpStats.mk.injEq]
  and_intros
  · funext op
    apply histOf_perm (h.filterMap _)
  · apply (h.map _).sum_eq
  · apply h.count_eq
  · apply h.count_eq
  · apply h.count_eq

/-- A worker's statistics are those of its events. -/
theorem workerStats_eq (events : List StatsEvent) :
  workerStats events = statsOf events
  := by
  have hfold : ∀ xs ys : List StatsEvent,
      xs.foldl statsRecord (statsOf ys) = statsOf (xs ++ ys) := by
    intro xs
    induction xs with
    | nil =>
      intro ys
      rfl
    | cons x xs ih =>
      intro ys
      rw [List.foldl_cons, statsRecord_statsOf, ih]
      apply statsOf_perm
      apply List.perm_middle
  rw [workerStats, statsReset_eq, hfold, List.append_nil]

/-- Merging workers concatenates their events. -/
theorem measureStats_workerStats (shards : List (List StatsEvent)) :
  measureStats (shards.map workerStats) = statsOf shards.flatten
  := by
  have hfold : ∀ (shards : List (List StatsEvent)) (events : List StatsEvent),
      (shards.map workerStats).foldl statsMerge (statsOf events)
        = statsOf (events ++ shards.flatten) := by
    intro shards
    induction shards with
    | nil =>
      intro events
      rw [List.flatten_nil, List.append_nil]
      rfl
    | cons shard shards ih =>
      intro events
      rw [List.map_cons, List.foldl_cons, workerStats_eq, statsMerge_statsOf, ih,
        List.flatten_cons, List.append_assoc]
  rw [measureStats, statsReset_eq, hfold, List.nil_append]

/-! ## Sharding -/

/-- However the events are shared out among workers, in whatever order each of them records
its share and in whatever order the workers are merged, the merged statistics are those of
one worker that records all events; the bucket totals are the counts, and the percentiles
those of the one worker. -/
theorem measureStats_shards {events : List StatsEvent} {shards : List (List StatsEvent)}
    (h : shards.flatten.Perm events) :
  measureStats (shards.map workerStats) = workerStats events ∧
    (∀ op, ((List.finRange histBuckets).map
        ((measureStats (shards.map workerStats)).h op).buckets).sum
      = ((measureStats (shards.map workerStats)).h op).count) ∧
    ∀ op p, histPercentile ((measureStats (shards.map workerStats)).h op) p
      = histPercentile ((workerStats events).h op) p
  := by
  have hmerge : measureStats (shards.map workerStats) = workerStats events := by
    rw [measureStats_workerStats, workerStats_eq]
    apply statsOf_perm h
  and_intros
  · apply hmerge
  · intro op
    rw [measureStats_workerStats]
    apply sum_buckets_histOf
  · intro op p
    rw [hmerge]

/-- Three workers, one of them idle. -/
theorem measureStats_shards_example :
  measureStats ([[.hit, .latency .get 5], [], [.prim 2, .latency .put 9]].map workerStats)
      = workerStats [.latency .put 9, .latency .get 5, .prim 2, .hit] ∧
    (∀ op, ((List.finRange histBuckets).map
        ((measureStats ([[.hit, .latency .get 5], [], [.prim 2, .latency .put 9]].map
          workerStats)).h op).buckets).sum
      = ((measureStats ([[.hit, .latency .get 5], [], [.prim 2, .latency .put 9]].map
          workerStats)).h op).count) ∧
    ∀ op p, histPercentile ((measureStats ([[.hit, .latency .get 5], [],
        [.prim 2, .latency .put 9]].map workerStats)).h op) p
      = histPercentile ((workerStats [.latency .put 9, .latency .get 5, .prim 2, .hit]).h op) p
  := measureStats_shards (by decide)

end Keybench
