import Keybench.Lib.RwLock
import Keybench.Skiplist.Access
import Keybench.Skiplist.Levels

/-!
# The skiplist under threads

`sl_put` and `sl_del` take the list's lock as writers, `sl_get` and `sl_range` as readers, and
`sl_stats` does not take it.  Threads that share a skiplist take their accesses in any order the
lock allows.  The answers are those of a map ordered by raw bytes to the calls in the order in
which they gave the lock back, no access fails and no thread waits for ever
(`threads_answered`).  What `sl_stats` reads beside a writer is the count and the level of the
list before the writer's call or after it (`slStats_between`).
-/

namespace Keybench

open Access Interleave RwLock

/-- `pthread_rwlock_wrlock` in `sl_put` and `sl_del`, `pthread_rwlock_rdlock` in `sl_get` and
`sl_range`. -/
def SlCall.mode : SlCall → Mode
  | .put _ _ => .exclusive
  | .get _ => .shared
  | .del _ => .exclusive
  | .range _ _ _ _ => .shared

section Runs

variable {R ι : Type} [DecidableEq ι] (rand : R → ℕ × R) (fuel : ℕ)

/-- The skiplist and its lock. -/
def slObject : Object (Skiplist R) SlCall SlAnswer where
  mode := SlCall.mode
  body := slBody rand fuel
  readOnly := by
    intro call h
    cases call with
    | put k v => cases h
    | get k =>
      apply Prog.ReadOnly.bind (slGetProg_readOnly fuel k)
      intro x
      apply Prog.ReadOnly.pure
    | del k => cases h
    | range lo hi limit cb =>
      apply Prog.ReadOnly.bind (slRangeProg_readOnly fuel lo hi limit _ _)
      intro x
      apply Prog.ReadOnly.pure

/-- `sl_stats`: two relaxed reads, without the lock. -/
def slStatsProg : Prog (Skiplist R) (List (String × ℤ)) := do
  let count ← Prog.get fun s => some s.count
  let level ← Prog.get fun s => some s.level
  pure [("keys", count), ("level", level)]

/-- The map a sequence of calls writes. -/
def slContents (calls : List SlCall) : Contents := calls.foldl SlCall.apply OrderedMap.empty

/-! ## One call after the other -/

variable {rand fuel}

/-- Calls one after the other are a run of the skiplist. -/
theorem slObject_serial (s : Skiplist R) (calls : List SlCall) :
  (slObject rand fuel).serial s calls
    = (slRun rand fuel s calls).bind fun answers =>
        (slAfter rand fuel s calls).map fun t => (answers, t)
  := by
  induction calls generalizing s with
  | nil => rfl
  | cons call calls ih =>
    have hbody : ((slObject rand fuel).body call).run s = slStep rand fuel s call :=
      run_slBody rand fuel call s
    rw [Object.serial, slRun, slAfter, hbody]
    simp only [Option.bind_eq_bind]
    cases slStep rand fuel s call with
    | none => rfl
    | some x =>
      simp only [Option.bind_some, ih]
      cases slRun rand fuel x.2 calls with
      | none => rfl
      | some answers =>
        simp only [Option.bind_some]
        cases slAfter rand fuel x.2 calls <;> rfl

/-- Calls one after the other on a new skiplist answer as an ordered map and leave a skiplist that
holds it. -/
theorem slObject_serial_spec (hrand : ∀ r, 0 < (rand r).1 ∧ (rand r).1 ≤ slMaxLevel) (rng : R)
    {calls : List SlCall} (hfuel : calls.length < fuel) :
  ∃ answers s, (slObject rand fuel).serial (skiplistOpen rng) calls = some (answers, s) ∧
    Answered (fun _ => none) calls answers ∧ SlHolds s (slContents calls)
  := by
  have hempty : (OrderedMap.empty : Contents).entries.length + calls.length < fuel := by
    rwa [show (OrderedMap.empty : Contents).entries.length = 0 from rfl, Nat.zero_add]
  obtain ⟨answers, hanswers, hrun⟩ := slRun_spec OrderedMap.empty calls
  obtain ⟨s, hafter, hholds⟩ := slAfter_spec hrand calls (SlHolds.open rng) hempty
  use answers, s
  rw [slObject_serial, hrun hrand (SlHolds.open rng) hempty, hafter]
  exact ⟨rfl, hanswers, hholds⟩

/-- What calls one after the other leave is the skiplist after the run of them. -/
theorem slAfter_of_serial (hrand : ∀ r, 0 < (rand r).1 ∧ (rand r).1 ≤ slMaxLevel) {rng : R}
    {calls : List SlCall} {answers : List SlAnswer} {s : Skiplist R} (hfuel : calls.length < fuel)
    (h : (slObject rand fuel).serial (skiplistOpen rng) calls = some (answers, s)) :
  slAfter rand fuel (skiplistOpen rng) calls = some s ∧ SlHolds s (slContents calls)
  := by
  obtain ⟨answers', s', hserial, -, hholds⟩ := slObject_serial_spec hrand rng hfuel
  obtain ⟨-, rfl⟩ := Prod.mk.inj (Option.some.inj (h.symm.trans hserial))
  rw [slObject_serial] at h
  obtain ⟨_, -, h⟩ := Option.bind_eq_some_iff.mp h
  obtain ⟨t, ht, heq⟩ := Option.map_eq_some_iff.mp h
  obtain ⟨-, rfl⟩ := Prod.mk.inj heq
  exact ⟨ht, hholds⟩

/-- Calls one after the other on a new skiplist succeed. -/
theorem slObject_serial_isSome (hrand : ∀ r, 0 < (rand r).1 ∧ (rand r).1 ≤ slMaxLevel) (rng : R)
    {calls : List SlCall} (hfuel : calls.length < fuel) :
  ((slObject rand fuel).serial (skiplistOpen rng) calls).isSome
  := by
  obtain ⟨answers, s, hserial, -, -⟩ := slObject_serial_spec hrand rng hfuel
  rw [hserial]
  rfl

/-- A sequence of calls writes no more keys than there are calls. -/
theorem length_slContents_le (calls : List SlCall) :
  (slContents calls).entries.length ≤ calls.length
  := by
  have hgo : ∀ (calls : List SlCall) (m : Contents),
      (calls.foldl SlCall.apply m).entries.length ≤ m.entries.length + calls.length := by
    intro calls
    induction calls with
    | nil => exact fun m => le_rfl
    | cons call calls ih =>
      intro m
      apply (ih (call.apply m)).trans
      have h := call.length_apply_le m
      rw [List.length_cons]
      omega
  apply (hgo calls OrderedMap.empty).trans
  rw [show (OrderedMap.empty : Contents).entries.length = 0 from rfl, Nat.zero_add]

/-- The count and the level of a skiplist that holds a map. -/
theorem SlHolds.count_level {s : Skiplist R} {m : Contents} (h : SlHolds s m) :
  s.count = m.entries.length ∧ 0 < s.level ∧ s.level ≤ slMaxLevel
  := by
  obtain ⟨hd, rows, hinv, hentries⟩ := h
  rw [hentries, List.length_map]
  exact ⟨hinv.count_eq, hinv.level_pos, hinv.level_le⟩

/-! ## Threads -/

variable {rng : R} {es : List (ι × Action SlCall)} {c : Config (Skiplist R) SlCall SlAnswer ι}

/-- The calls answered are fewer than the steps of the loops. -/
theorem ops_length_lt (hrun : run (step (slObject rand fuel)) (start (skiplistOpen rng)) es = some c)
    (hfuel : (calls (es.map Prod.snd)).length < fuel) :
  c.ops.length < fuel
  := by
  have hlen := answered_le hrun ∅ (by simp)
  apply Nat.lt_of_le_of_lt _ hfuel
  simpa [Config.ops] using hlen

/-- Threads share a new skiplist, whatever heights from `1` to `slMaxLevel` are drawn.  In every
interleaving of their accesses the answers are those an ordered map gives to the calls in the
order in which they gave the lock back.  That order keeps each thread's own order, with at most
the call it is in left out, and a call answered before another is made comes before it.  No access
of a thread that holds the lock fails, and while some thread is in a call some thread can go on. -/
theorem threads_answered (hrand : ∀ r, 0 < (rand r).1 ∧ (rand r).1 ≤ slMaxLevel)
    (hrun : run (step (slObject rand fuel)) (start (skiplistOpen rng)) es = some c)
    (hfuel : (calls (es.map Prod.snd)).length < fuel) :
  Answered (fun _ => none) c.ops c.answers ∧
    (∀ t, (own t c.log).map Prod.fst ++ (c.phase t).pending = calls (own t es)) ∧
    (∀ es₁ es₂, es = es₁ ++ es₂ → ∃ c₁,
      run (step (slObject rand fuel)) (start (skiplistOpen rng)) es₁ = some c₁ ∧
        c₁.log <+: c.log) ∧
    (∀ t call p, c.phase t = .inside call p → (∃ a, p = .done a) ∨ (p.next c.state).isSome) ∧
    (∀ t, c.phase t ≠ .idle → ∃ u x, x.called = none ∧
      (step (slObject rand fuel) c (u, x)).isSome)
  := by
  have hsafe : ∀ ops : List SlCall, ops.length ≤ (calls (es.map Prod.snd)).length →
      ((slObject rand fuel).serial (skiplistOpen rng) ops).isSome := by
    intro ops hops
    apply slObject_serial_isSome hrand rng (Nat.lt_of_le_of_lt hops hfuel)
  obtain ⟨s, h⟩ := reached_of_run hrun
  and_intros
  · obtain ⟨answers, s', hserial, hanswered, -⟩ :=
      slObject_serial_spec hrand rng (ops_length_lt hrun hfuel)
    obtain ⟨rfl, -⟩ := Prod.mk.inj (Option.some.inj (h.serial.symm.trans hserial))
    apply hanswered
  · apply own_log hrun
  · intro es₁ es₂ hes
    rw [hes, run_append] at hrun
    obtain ⟨c₁, hc₁, hrest⟩ := Option.bind_eq_some_iff.mp hrun
    use c₁, hc₁
    apply log_prefix hrest
  · intro t call p hphase
    apply h.access_isSome hrun hsafe hphase
  · intro t hbusy
    apply h.progress hrun hsafe hbusy

/-- The calls are those answered, or those and one of a thread that holds the lock. -/
def Glimpsed (c : Config (Skiplist R) SlCall SlAnswer ι) (calls : List SlCall) : Prop :=
  calls = c.ops ∨ ∃ t call p, c.phase t = .inside call p ∧ calls = c.ops ++ [call]

/-- What an observation of the record that no call changes twice shows: what it is after the
answered calls, or after those and the call of a thread that holds the lock. -/
theorem exists_glimpsed {O : Type} {o : Skiplist R → O}
    (hrand : ∀ r, 0 < (rand r).1 ∧ (rand r).1 ≤ slMaxLevel)
    (ho : ∀ s mem brk rng, o { s with mem, brk, rng } = o s)
    (hor : (∀ s level, o { s with level } = o s) ∨ ∀ s count, o { s with count } = o s)
    (hrun : run (step (slObject rand fuel)) (start (skiplistOpen rng)) es = some c)
    (hfuel : (calls (es.map Prod.snd)).length < fuel) :
  ∃ calls s, Glimpsed c calls ∧ slAfter rand fuel (skiplistOpen rng) calls = some s ∧
    SlHolds s (slContents calls) ∧ o c.state = o s
  := by
  have hsafe : ∀ ops : List SlCall, ops.length ≤ (calls (es.map Prod.snd)).length →
      ((slObject rand fuel).serial (skiplistOpen rng) ops).isSome := by
    intro ops hops
    apply slObject_serial_isSome hrand rng (Nat.lt_of_le_of_lt hops hfuel)
  obtain ⟨s, h, hseen⟩ := exists_observed (fun call => slBody_once rand fuel call ho hor) hrun hsafe
  rcases hseen with hseen | ⟨t, call, p, a, s', hphase, hbody, hseen⟩
  · obtain ⟨hrun', hholds⟩ := slAfter_of_serial hrand (ops_length_lt hrun hfuel) h.serial
    use c.ops, s
    exact ⟨Or.inl rfl, hrun', hholds, hseen⟩
  · have hlen := answered_le hrun {t} (by
      intro u hu
      obtain rfl := Finset.mem_singleton.mp hu
      rw [hphase]
      rintro ⟨⟩)
    have hops : (c.ops ++ [call]).length < fuel := by
      apply Nat.lt_of_le_of_lt _ hfuel
      simpa [Config.ops] using hlen
    obtain ⟨hrun', hholds⟩ := slAfter_of_serial hrand hops
      (Object.serial_concat _ h.serial hbody)
    use c.ops ++ [call], s'
    exact ⟨Or.inr ⟨t, call, p, hphase, rfl⟩, hrun', hholds, hseen⟩

/-- `sl_stats` takes its two reads at two moments of a run.  The number of keys is that of the map
written by the calls answered at the first, or by those and one call under way; the level is that
of the skiplist after the calls answered at the second, or after those and one call under way. -/
theorem slStats_between {es' : List (ι × Action SlCall)}
    {c' : Config (Skiplist R) SlCall SlAnswer ι}
    (hrand : ∀ r, 0 < (rand r).1 ∧ (rand r).1 ≤ slMaxLevel)
    (hrun : run (step (slObject rand fuel)) (start (skiplistOpen rng)) es = some c)
    (hrun' : run (step (slObject rand fuel)) c es' = some c')
    (hfuel : (calls ((es ++ es').map Prod.snd)).length < fuel) :
  ∃ calls₁ calls₂ s, Glimpsed c calls₁ ∧ Glimpsed c' calls₂ ∧
    slAfter rand fuel (skiplistOpen rng) calls₂ = some s ∧
    0 < s.level ∧ s.level ≤ slMaxLevel ∧
    (slStatsProg.next c.state).bind (fun x => x.1.next c'.state)
      = some (pure [("keys", ((slContents calls₁).entries.length : ℤ)), ("level", (s.level : ℤ))],
          c'.state)
  := by
  have hle : (calls (es.map Prod.snd)).length < fuel := by
    rw [List.map_append, calls, List.filterMap_append, List.length_append] at hfuel
    apply Nat.lt_of_le_of_lt (Nat.le_add_right _ _) hfuel
  have hboth : run (step (slObject rand fuel)) (start (skiplistOpen rng)) (es ++ es') = some c' := by
    rw [run_append, hrun]
    apply hrun'
  obtain ⟨calls₁, s₁, hcalls₁, -, hholds₁, hcount⟩ := exists_glimpsed (o := Skiplist.count) hrand
    (fun _ _ _ _ => rfl) (Or.inl fun _ _ => rfl) hrun hle
  obtain ⟨calls₂, s₂, hcalls₂, hafter, hholds₂, hlevel⟩ := exists_glimpsed (o := Skiplist.level)
    hrand (fun _ _ _ _ => rfl) (Or.inr fun _ _ => rfl) hboth hfuel
  obtain ⟨-, hpos, hmax⟩ := hholds₂.count_level
  use calls₁, calls₂, s₂, hcalls₁, hcalls₂, hafter, hpos, hmax
  rw [← hholds₁.count_level.1, ← hcount, ← hlevel]
  rfl

end Runs

/-! ## Two threads -/

/-- A thread puts a key, and a second one calls for the key meanwhile. -/
def putAndGet : List (Fin 2 × Action SlCall) :=
  [(0, .call (.put [2] [7])), (0, .enter), (1, .call (.get [2]))] ++ List.replicate 22 (0, .access)

/-- The second thread is inside its own call at the end. -/
theorem threads_answered_example :
  ∃ c, run (step (slObject randLevel 4)) (start (skiplistOpen (skiplistSeed 1)))
      (putAndGet ++ [(0, .leave), (1, .enter), (1, .access)]) = some c ∧
    Answered (fun _ => none) c.ops c.answers ∧
    (own 1 c.log).map Prod.fst ++ (c.phase 1).pending = [.get [2]]
  := by
  obtain ⟨c, hrun⟩ := Option.isSome_iff_exists.mp (show
    (run (step (slObject randLevel 4)) (start (skiplistOpen (skiplistSeed 1)))
      (putAndGet ++ [(0, .leave), (1, .enter), (1, .access)])).isSome from rfl)
  obtain ⟨hanswered, hown, -⟩ := threads_answered randLevel_height hrun (by decide)
  use c, hrun, hanswered
  rw [hown]
  rfl

/-- A glance after the new node is counted and before its call has given the lock back. -/
theorem slStats_between_example :
  ∃ c, run (step (slObject randLevel 4)) (start (skiplistOpen (skiplistSeed 1))) putAndGet = some c ∧
    ∃ calls₁ calls₂ s, Glimpsed c calls₁ ∧ Glimpsed c calls₂ ∧
      slAfter randLevel 4 (skiplistOpen (skiplistSeed 1)) calls₂ = some s ∧
      0 < s.level ∧ s.level ≤ slMaxLevel ∧
      (slStatsProg.next c.state).bind (fun x => x.1.next c.state)
        = some (pure [("keys", ((slContents calls₁).entries.length : ℤ)), ("level", (s.level : ℤ))],
            c.state)
  := by
  obtain ⟨c, hrun⟩ := Option.isSome_iff_exists.mp (show
    (run (step (slObject randLevel 4)) (start (skiplistOpen (skiplistSeed 1))) putAndGet).isSome
      from rfl)
  use c, hrun
  have hnil : run (step (slObject randLevel 4)) c [] = some c := rfl
  apply slStats_between randLevel_height hrun hnil (by decide)

end Keybench
