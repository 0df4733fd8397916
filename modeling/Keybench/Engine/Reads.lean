import Keybench.Engine.Agreement
import Keybench.Kv.Deletes
import Keybench.Kv.Portable

/-!
# Programs on the three engines

The reading operations of the three engines answer as the contents they hold: those of the
skiplist always, and those of RocksDB and of TidesDB when no call of them fails and their iterators
step through what was written.  So a portable program has the same outcome on the three of them
(`progOutcome_engines`): it ends in the same way, makes the same calls, counts the same and leaves
the same contents.
-/

namespace Keybench

/-! ## The skiplist -/

/-- The skiplist reads as its contents. -/
theorem skiplist_reads {R : Type} {rand : R → ℕ × R}
    (hrand : ∀ r, 0 < (rand r).1 ∧ (rand r).1 ≤ slMaxLevel) :
  (skiplistBackend hrand).toKvReads.IsMap HeldSkiplist.contents
  := by
  have hget : ∀ s k, (skiplistBackend hrand).get s k = ((s.get k).1, (s.get k).2, s) :=
    fun _ _ => rfl
  have hrange : ∀ {σ : Type} (s : HeldSkiplist R) lo hi limit (cb : RowCallback σ Bytes Bytes) st,
      (skiplistBackend hrand).range s lo hi limit cb st
        = (((scan cb (leading limit (s.contents.slice lo hi)) st).passed : ℤ),
          (scan cb (leading limit (s.contents.slice lo hi)) st).state) := by
    intro σ s lo hi limit cb st
    apply Option.get_of_eq_some
    apply slRange_spec s.holds lo hi limit cb st s.fuel_enough
  constructor
  case get => exact fun _ _ => rfl
  case absent =>
    intro s k hlook
    rw [hget, s.get_eq, hlook]
  case present =>
    intro s k v hlook
    rw [hget, s.get_eq, hlook]
    exact ⟨zero_lt_one, rfl⟩
  case rows =>
    intro σ s lo hi limit cb st
    rw [hrange]
  case count =>
    intro σ s lo hi limit cb st hpasses
    rw [hrange, passed_of_passes _ _ _ hpasses]

/-! ## RocksDB -/

section Rocksdb

variable {W D It : Type}

/-- The calls of RocksDB that read. -/
structure RocksdbReads (W D It : Type) where
  /-- `rocksdb_get`: an error string, or none, and the value, which may be `NULL`. -/
  get : W → D → Bytes → Option Bytes × Option Bytes × W
  /-- The iterators of the database. -/
  iterators : W → RocksdbApi D It

/-- `rdb_get`: the code and the copied value. -/
def rdbGet (E : RocksdbReads W D It) (db : D) (w : W) (k : Bytes) : ℤ × Bytes × W :=
  match E.get w db k with
  | (some _, _, w) => (kvErr, [], w)
  | (none, none, w) => (0, [], w)
  | (none, some v, w) => (1, v, w)

/-- RocksDB reads what it holds. -/
structure RocksdbReads.IsMap (E : RocksdbReads W D It) (db : D) (contents : W → Contents) :
    Prop where
  get : ∀ w k, (E.get w db k).1 = none ∧ (E.get w db k).2.1 = (contents w).lookup k ∧
    contents (E.get w db k).2.2 = contents w
  iterates : ∀ w, (E.iterators w).Iterates db (contents w)

variable {E : RocksdbReads W D It} {db : D} {contents : W → Contents}

/-- The reading operations of the RocksDB engine. -/
def rocksdbReads (h : E.IsMap db contents) : KvReads W where
  get := rdbGet E db
  range w lo hi limit cb st :=
    (rdbRange (E.iterators w) ((contents w).entries.length + 1) db lo hi limit cb st).get (by
      rw [rdbRange_spec (h.iterates w) lo hi limit cb st (Nat.lt_succ_self _)]
      rfl)
  range_calls w lo hi limit cb st := by
    use leading limit ((contents w).slice lo hi)
    have hrun := rdbRange_spec (h.iterates w) lo hi limit cb st (Nat.lt_succ_self _)
    rw [Option.get_of_eq_some _ hrun]

/-- A range of RocksDB. -/
theorem rocksdbReads_range (h : E.IsMap db contents) {σ : Type} (w : W) (lo hi : Bytes) (limit : ℤ)
    (cb : RowCallback σ Bytes Bytes) (st : σ) :
  (rocksdbReads h).range w lo hi limit cb st
    = (((scan cb (leading limit ((contents w).slice lo hi)) st).called : ℤ),
      (scan cb (leading limit ((contents w).slice lo hi)) st).state)
  := by
  apply Option.get_of_eq_some
  apply rdbRange_spec (h.iterates w) lo hi limit cb st (Nat.lt_succ_self _)

/-- RocksDB reads as its contents. -/
theorem rocksdb_reads (h : E.IsMap db contents) :
  (rocksdbReads h).IsMap contents
  := by
  have hget : ∀ w k, (rocksdbReads h).get w k = rdbGet E db w k := fun _ _ => rfl
  have hvalue : ∀ w k, contents (rdbGet E db w k).2.2 = contents w ∧
      ((contents w).lookup k = none → (rdbGet E db w k).1 = 0) ∧
      ∀ v, (contents w).lookup k = some v → 0 < (rdbGet E db w k).1 ∧
        (rdbGet E db w k).2.1 = v := by
    intro w k
    obtain ⟨herr, hlook, hcontents⟩ := h.get w k
    obtain ⟨err, value, w', heq⟩ : ∃ err value w', E.get w db k = (err, value, w') :=
      ⟨_, _, _, rfl⟩
    rw [heq] at herr hlook hcontents
    obtain rfl : err = none := herr
    rw [← hlook, rdbGet, heq]
    cases value with
    | none =>
      use hcontents, fun _ => rfl
      rintro v ⟨⟩
    | some value =>
      use hcontents
      constructor
      · rintro ⟨⟩
      · rintro v ⟨⟩
        exact ⟨zero_lt_one, rfl⟩
  constructor
  case get => exact fun w k => (hvalue w k).1
  case absent => exact fun w k => (hvalue w k).2.1
  case present => exact fun w k => (hvalue w k).2.2
  case rows =>
    intro σ w lo hi limit cb st
    rw [rocksdbReads_range]
  case count =>
    intro σ w lo hi limit cb st hpasses
    rw [rocksdbReads_range, ← (passed_eq_called_iff _ _ _).mpr hpasses,
      passed_of_passes _ _ _ hpasses]

end Rocksdb

/-! ## TidesDB -/

section Tidesdb

variable {W D Cf Txn It Ptr σ : Type}

/-- The iterator stands before the given rows.  The key and the value of a row are freed before the
next step. -/
def TidesdbEngine.StandsAt (E : TidesdbEngine W D Cf Txn It Ptr) (it : It) :
    W → List (Bytes × Bytes) → Prop
  | w, [] => (E.iterValid w it).1 = false
  | w, (k, v) :: rows => (E.iterValid w it).1 = true ∧ ∃ p q w',
      E.iterKeyValue (E.iterValid w it).2 it = (tdbSuccess, (p, k), (q, v), w') ∧
      (rows ≠ [] → (E.iterNext (E.free (E.free w' p) q) it).1 = tdbSuccess) ∧
      E.StandsAt it (E.iterNext (E.free (E.free w' p) q) it).2 rows

/-- TidesDB reads what it holds: a lookup hands out a copy of the value, and a new iterator seeks
and steps through the contents. -/
structure TidesdbEngine.ReadsMap (E : TidesdbEngine W D Cf Txn It Ptr) (t : Tdb D Cf)
    (contents : W → Contents) : Prop where
  notFound : E.errNotFound ≠ tdbSuccess
  get : ∀ w txn k, contents (E.txnGet w txn t.cf k).2.2 = contents w
  absent : ∀ w txn k, (contents w).lookup k = none →
    (E.txnGet w txn t.cf k).1 = E.errNotFound
  present : ∀ w txn k v, (contents w).lookup k = some v →
    ∃ p w', E.txnGet w txn t.cf k = (tdbSuccess, some (p, v), w')
  free : ∀ w p, contents (E.free w p) = contents w
  iterNew : ∀ w txn, (E.iterNew w txn t.cf).1 = tdbSuccess ∧
    contents (E.iterNew w txn t.cf).2.2 = contents w
  seek : ∀ w txn lo, E.StandsAt (E.iterNew w txn t.cf).2.1
    (E.iterSeek (E.iterNew w txn t.cf).2.2 (E.iterNew w txn t.cf).2.1 lo)
    ((contents w).entries.filter fun e => lo ≤ e.1)

variable {E : TidesdbEngine W D Cf Txn It Ptr}

/-- A row past `hi` ends the loop.  Another one is handed to the callback and counted. -/
theorem tdbRow_spec (E : TidesdbEngine W D Cf Txn It Ptr) (hi : Bytes) (cb : RowCallback σ Bytes Bytes) (k v : Bytes) (p q : Ptr) (n : ℤ)
    (st : σ) (r : TdbRun W Txn It Ptr) :
  (hi ≤ k → ∃ r', tdbRow E hi (tdbCallback cb) (p, k) (q, v) n st r = (n, true, st, r')) ∧
    (k < hi → ∃ r' : TdbRun W Txn It Ptr, r'.world = E.free (E.free r.world p) q ∧
      tdbRow E hi (tdbCallback cb) (p, k) (q, v) n st r
        = (n + 1, decide ((cb st k v).1 ≠ 0), (cb st k v).2, r'))
  := by
  constructor
  · intro hpast
    have hcmp : decide (0 ≤ kvKeycmp k hi) = true :=
      decide_eq_true ((kvKeycmp_nonneg_iff k hi).mpr hpast)
    simp only [tdbRow, hcmp, if_true, Bool.true_or]
    exact ⟨_, rfl⟩
  · intro hbelow
    have hcmp : decide (0 ≤ kvKeycmp k hi) = false := by
      rw [decide_eq_false_iff_not, kvKeycmp_nonneg_iff, not_le]
      apply hbelow
    simp only [tdbRow, hcmp, Bool.false_eq_true, if_false, Bool.false_or, tdbCallback]
    refine ⟨_, ?_, rfl⟩
    rfl

/-- The loop hands the remaining rows below `hi` to the callback and counts its calls. -/
theorem tdbRows_spec (hi : Bytes) (limit : ℤ) (cb : RowCallback σ Bytes Bytes) (it : It)
    (rows : List (Bytes × Bytes)) {fuel : ℕ} (n : ℤ) (st : σ) (r : TdbRun W Txn It Ptr)
    (hit : E.StandsAt it r.world rows) (hfuel : rows.length < fuel) :
  (tdbRows E hi limit (tdbCallback cb) it fuel n st r).1
    = some (n + (scan cb (remaining limit n (OrderedMap.upTo hi rows)) st).called,
        (scan cb (remaining limit n (OrderedMap.upTo hi rows)) st).state)
  := by
  induction rows generalizing fuel n st r with
  | nil =>
    obtain ⟨fuel, rfl⟩ := Nat.exists_eq_succ_of_ne_zero (Nat.ne_of_gt hfuel)
    have hvalid : (E.iterValid r.world it).1 = false := hit
    simp [tdbRows, hvalid, ScanOutcome.called]
  | cons row rows ih =>
    obtain ⟨k, v⟩ := row
    obtain ⟨fuel, rfl⟩ := Nat.exists_eq_succ_of_ne_zero (Nat.ne_of_gt (Nat.zero_lt_of_lt hfuel))
    obtain ⟨hvalid, p, q, w', hkv, hstep, hnext⟩ := hit
    obtain ⟨valid, w, heq⟩ : ∃ valid w, E.iterValid r.world it = (valid, w) := ⟨_, _, rfl⟩
    rw [heq] at hvalid hkv
    obtain rfl : valid = true := hvalid
    obtain ⟨rc, w₁, hiter⟩ : ∃ rc w₁, E.iterNext (E.free (E.free w' p) q) it = (rc, w₁) :=
      ⟨_, _, rfl⟩
    rw [hiter] at hstep hnext
    rw [tdbRows]
    by_cases hlim : limit ≤ 0 ∨ n < limit
    · simp only [heq, hlim, and_self, if_true, TdbRun.note_world, hkv, ne_eq, not_true_eq_false,
        if_false]
      obtain ⟨hpast, hbelow⟩ := tdbRow_spec E hi cb k v p q n st
        ((r.note w (.iterValid it)).note w' (.iterKeyValue it tdbSuccess p q))
      rcases lt_or_ge k hi with hhi | hhi
      · obtain ⟨r', hworld, hrow⟩ := hbelow hhi
        rw [TdbRun.note_world] at hworld
        rw [OrderedMap.upTo_cons_lt hhi, remaining_cons hlim]
        simp only [hrow, hworld, hiter]
        rcases eq_or_ne (cb st k v).1 0 with hstop | hstop
        · rw [scan_cons_pass hstop]
          simp only [hstop, ne_eq, not_true_eq_false, decide_false, Bool.false_eq_true, if_false]
          split_ifs with hrc
          · rw [ih (n + 1) (cb st k v).2 _ hnext (Nat.lt_of_succ_lt_succ hfuel)]
            simp only [ScanOutcome.called, Option.some.injEq, Prod.mk.injEq, and_true]
            omega
          · -- The last row: no further row is left to count.
            obtain rfl : rows = [] := by
              by_contra hne
              apply hrc (hstep hne)
            simp [ScanOutcome.called]
        · rw [scan_cons_stop hstop]
          simp [hstop, ScanOutcome.called]
      · obtain ⟨r', hrow⟩ := hpast hhi
        rw [OrderedMap.upTo_cons_ge hhi.not_gt]
        simp [hrow, ScanOutcome.called]
    · rw [remaining_of_reached hlim]
      simp [heq, hlim, ScanOutcome.called]

variable {t : Tdb D Cf} {contents : W → Contents} {pending : W → Txn → List KvWrite}

/-- `tdb_range` calls the callback on the leading rows of the slice and counts its calls. -/
theorem tdbRangeCalls_spec (h : E.IsMap t contents pending) (hreads : E.ReadsMap t contents)
    (lo hi : Bytes) (limit : ℤ) (cb : RowCallback σ Bytes Bytes) (st : σ)
    (r : TdbRun W Txn It Ptr) {fuel : ℕ} (hfuel : (contents r.world).entries.length < fuel) :
  (tdbRangeCalls E t fuel lo hi limit (tdbCallback cb) st r).1
    = some (((scan cb (leading limit ((contents r.world).slice lo hi)) st).called : ℤ),
        (scan cb (leading limit ((contents r.world).slice lo hi)) st).state)
  := by
  obtain ⟨rc, txn, w, hbegin⟩ : ∃ rc txn w, E.txnBegin r.world t.db = (rc, txn, w) :=
    ⟨_, _, _, rfl⟩
  obtain ⟨rc', it, w', hnew⟩ : ∃ rc' it w', E.iterNew w txn t.cf = (rc', it, w') := ⟨_, _, _, rfl⟩
  obtain ⟨hrc, hcontents, -⟩ := h.begin r.world
  obtain ⟨hrc', -⟩ := hreads.iterNew w txn
  have hseek := hreads.seek w txn lo
  rw [hbegin] at hrc hcontents
  rw [hnew] at hrc' hseek
  dsimp only at hrc hcontents hrc' hseek
  have hlen : ((contents w).entries.filter fun e => lo ≤ e.1).length < fuel := by
    rw [hcontents]
    apply Nat.lt_of_le_of_lt (List.length_filter_le _ _) hfuel
  have hrows := tdbRows_spec hi limit cb it _ 0 st
    (((r.note w (.txnBegin rc txn)).note w' (.iterNew txn rc' it)).note (E.iterSeek w' it lo)
      (.iterSeek it)) hseek hlen
  rw [← OrderedMap.SplitAt.slice_eq ((contents w).splitAt lo), ← leading_eq_remaining, hcontents,
    Int.zero_add] at hrows
  rw [tdbRangeCalls]
  simp only [hbegin, hrc, ne_eq, not_true_eq_false, if_false, TdbRun.note_world, hnew, hrc']
  rw [hrc, hrc'] at hrows
  split
  · rename_i hnone
    rw [hnone] at hrows
    cases hrows
  · rename_i hsome
    rw [hsome] at hrows
    apply hrows

/-- The reading operations of the TidesDB engine. -/
def tidesdbReads (h : E.IsMap t contents pending) (hreads : E.ReadsMap t contents) :
    KvReads (TdbRun W Txn It Ptr) where
  get r k := ((tdbGet E t k r).1, (tdbGet E t k r).2.1.getD [], (tdbGet E t k r).2.2)
  range r lo hi limit cb st :=
    (tdbRangeCalls E t ((contents r.world).entries.length + 1) lo hi limit (tdbCallback cb) st
      r).1.get (by
        rw [tdbRangeCalls_spec h hreads lo hi limit cb st r (Nat.lt_succ_self _)]
        rfl)
  range_calls r lo hi limit cb st := by
    use leading limit ((contents r.world).slice lo hi)
    have hrun := tdbRangeCalls_spec h hreads lo hi limit cb st r (Nat.lt_succ_self _)
    rw [Option.get_of_eq_some _ hrun]

/-- A range of TidesDB. -/
theorem tidesdbReads_range (h : E.IsMap t contents pending) (hreads : E.ReadsMap t contents)
    (r : TdbRun W Txn It Ptr) (lo hi : Bytes) (limit : ℤ) (cb : RowCallback σ Bytes Bytes) (st : σ) :
  (tidesdbReads h hreads).range r lo hi limit cb st
    = (((scan cb (leading limit ((contents r.world).slice lo hi)) st).called : ℤ),
      (scan cb (leading limit ((contents r.world).slice lo hi)) st).state)
  := by
  apply Option.get_of_eq_some
  apply tdbRangeCalls_spec h hreads lo hi limit cb st r (Nat.lt_succ_self _)

/-- A lookup of TidesDB leaves the contents and finds what they hold. -/
theorem tdbGet_spec (h : E.IsMap t contents pending) (hreads : E.ReadsMap t contents)
    (r : TdbRun W Txn It Ptr) (k : Bytes) :
  contents (tdbGet E t k r).2.2.world = contents r.world ∧
    ((contents r.world).lookup k = none → (tdbGet E t k r).1 = 0) ∧
    ∀ v, (contents r.world).lookup k = some v →
      (tdbGet E t k r).1 = 1 ∧ (tdbGet E t k r).2.1 = some v
  := by
  obtain ⟨rc, txn, w, hbegin⟩ : ∃ rc txn w, E.txnBegin r.world t.db = (rc, txn, w) :=
    ⟨_, _, _, rfl⟩
  obtain ⟨rc', val, w', hget⟩ : ∃ rc' val w', E.txnGet w txn t.cf k = (rc', val, w') :=
    ⟨_, _, _, rfl⟩
  obtain ⟨hrc, hcontents, -⟩ := h.begin r.world
  have hcontents' := hreads.get w txn k
  have habsent := hreads.absent w txn k
  have hpresent := hreads.present w txn k
  rw [hbegin] at hrc hcontents
  rw [hget] at hcontents' habsent hpresent
  dsimp only at hrc hcontents hcontents' habsent
  rw [← hcontents, tdbGet]
  simp only [hbegin, hrc, ne_eq, not_true_eq_false, if_false, TdbRun.note_world, hget]
  cases hlook : (contents w).lookup k with
  | none =>
    have hrc' : rc' = E.errNotFound := habsent hlook
    have hne : rc' ≠ tdbSuccess := by
      rw [hrc']
      apply hreads.notFound
    cases val with
    | none =>
      simp only [hrc', if_true, TdbRun.note_world, h.free, hcontents']
      simp
    | some b =>
      simp only [hne, if_false]
      simp only [hrc', if_true, TdbRun.note_world, h.free, hcontents']
      simp
  | some v =>
    obtain ⟨p, w'', heq⟩ := hpresent v hlook
    obtain ⟨rfl, hval⟩ := Prod.mk.inj heq
    obtain ⟨rfl, rfl⟩ := Prod.mk.inj hval
    simp only [if_true, TdbRun.note_world, h.free, hreads.free, hcontents', Option.map_some]
    simp

/-- TidesDB reads as its contents. -/
theorem tidesdb_reads (h : E.IsMap t contents pending) (hreads : E.ReadsMap t contents) :
  (tidesdbReads h hreads).IsMap (fun r => contents r.world)
  := by
  have hget : ∀ r k, (tidesdbReads h hreads).get r k
      = ((tdbGet E t k r).1, (tdbGet E t k r).2.1.getD [], (tdbGet E t k r).2.2) := fun _ _ => rfl
  constructor
  case get => exact fun r k => (tdbGet_spec h hreads r k).1
  case absent => exact fun r k => (tdbGet_spec h hreads r k).2.1
  case present =>
    intro r k v hlook
    obtain ⟨hcode, hvalue⟩ := (tdbGet_spec h hreads r k).2.2 v hlook
    rw [hget, hcode, hvalue]
    exact ⟨zero_lt_one, rfl⟩
  case rows =>
    intro σ r lo hi limit cb st
    rw [tidesdbReads_range]
  case count =>
    intro σ r lo hi limit cb st hpasses
    rw [tidesdbReads_range, ← (passed_eq_called_iff _ _ _).mpr hpasses,
      passed_of_passes _ _ _ hpasses]

end Tidesdb

/-! ## Outcomes -/

/-- What a run of a program shows, apart from latencies. -/
structure ProgOutcome where
  /-- How the program ended. -/
  ending : LuaEnd
  /-- The calls it made. -/
  made : List KvMade
  /-- The primitive operations. -/
  primOps : ℕ
  /-- The lookups that found their key. -/
  getHits : ℕ
  /-- The lookups that did not find their key. -/
  getMisses : ℕ
  /-- The lookups the engine failed. -/
  getErrors : ℕ
  /-- The calls of each kind. -/
  calls : KvOp → ℕ
  /-- What the store holds at the end. -/
  contents : Contents

/-- The outcome of a program on a store, with the statistics reset before. -/
def progOutcome {S : Type} (api : KvStore S) (contents : S → Contents) (prog : LuaProg) (s : S) :
    ProgOutcome :=
  let (ending, r) := runLua api prog ⟨⟨s, statsReset⟩, []⟩
  let stats := r.worker.stats
  { ending, made := r.made, primOps := stats.primOps, getHits := stats.getHits,
    getMisses := stats.getMisses, getErrors := stats.getErrors, calls := fun op => (stats.h op).count,
    contents := contents r.worker.store }

/-- The outcome of a portable program on stores that are maps depends on the contents only. -/
theorem progOutcome_eq {S₁ S₂ : Type} {api₁ : KvStore S₁} {api₂ : KvStore S₂} {c₁ : S₁ → Contents}
    {c₂ : S₂ → Contents} (h₁ : api₁.IsMap c₁) (h₂ : api₂.IsMap c₂) {prog : LuaProg}
    (hprog : prog.Portable) {s₁ : S₁} {s₂ : S₂} (hs : c₁ s₁ = c₂ s₂) :
  progOutcome api₁ c₁ prog s₁ = progOutcome api₂ c₂ prog s₂
  := by
  have hr : LuaRun.Agrees c₁ c₂ ⟨⟨s₁, statsReset⟩, []⟩ ⟨⟨s₂, statsReset⟩, []⟩ :=
    ⟨⟨hs, ⟨rfl, rfl, rfl, rfl, fun _ => rfl⟩⟩, rfl⟩
  obtain ⟨hend, ⟨hcontents, hprims, hhits, hmisses, herrors, hcalls⟩, hmade⟩ :=
    runLua_agrees h₁ h₂ hprog hr
  simp only [progOutcome, ProgOutcome.mk.injEq]
  exact ⟨hend, hmade, hprims, hhits, hmisses, herrors, funext hcalls, hcontents⟩

section Engines

variable {R C C₁ C₂ W₁ D₁ It₁ W₂ D₂ Cf Txn It₂ Ptr : Type} {rand : R → ℕ × R}
  (hrand : ∀ r, 0 < (rand r).1 ∧ (rand r).1 ≤ slMaxLevel)
  {E₁ : RocksdbEngine W₁ D₁} {db : D₁} {c₁ : W₁ → Contents} (h₁ : E₁.IsMap db c₁)
  {reads : RocksdbReads W₁ D₁ It₁} (hreads₁ : reads.IsMap db c₁)
  {E₂ : TidesdbEngine W₂ D₂ Cf Txn It₂ Ptr} {t : Tdb D₂ Cf} {c₂ : W₂ → Contents}
  {pending : W₂ → Txn → List KvWrite} (h₂ : E₂.IsMap t c₂ pending) (hreads₂ : E₂.ReadsMap t c₂)
  (clock : C → UInt64 × C) (clock₁ : C₁ → UInt64 × C₁) (clock₂ : C₂ → UInt64 × C₂)

/-- The store over RocksDB. -/
def rocksdbStore : KvStore (C₁ × W₁) :=
  (rocksdbBackend E₁ db (rocksdbReads hreads₁)).store (h₁.reliable _).settles clock₁

/-- The store over TidesDB. -/
def tidesdbStore : KvStore (C₂ × TdbRun W₂ Txn It₂ Ptr) :=
  (tidesdbBackend E₂ t (tidesdbReads h₂ hreads₂)).store (h₂.reliable _).settles clock₂

/-- The store over the skiplist is a map. -/
theorem skiplistStore_isMap :
  (skiplistStore hrand clock).IsMap (fun cs => cs.2.contents)
  := (skiplist_reliable hrand).store_isMap (skiplist_reads hrand) _ clock

/-- The store over RocksDB is a map. -/
theorem rocksdbStore_isMap :
  (rocksdbStore h₁ hreads₁ clock₁).IsMap (fun cs => c₁ cs.2)
  := (h₁.reliable _).store_isMap (rocksdb_reads hreads₁) _ clock₁

/-- The store over TidesDB is a map. -/
theorem tidesdbStore_isMap :
  (tidesdbStore h₂ hreads₂ clock₂).IsMap (fun cs => c₂ cs.2.world)
  := (h₂.reliable _).store_isMap (tidesdb_reads h₂ hreads₂) _ clock₂

/-- A portable program has the same outcome on the skiplist, on RocksDB and on TidesDB, when they
hold the same contents before it. -/
theorem progOutcome_engines {prog : LuaProg} (hprog : prog.Portable) (m : Contents)
    {s : C × HeldSkiplist R} (hs : s.2.contents = m) {w : C₁ × W₁} (hw : c₁ w.2 = m)
    {r : C₂ × TdbRun W₂ Txn It₂ Ptr} (hr : c₂ r.2.world = m) :
  progOutcome (skiplistStore hrand clock) (fun cs => cs.2.contents) prog s
      = progOutcome (rocksdbStore h₁ hreads₁ clock₁) (fun cs => c₁ cs.2) prog w ∧
    progOutcome (rocksdbStore h₁ hreads₁ clock₁) (fun cs => c₁ cs.2) prog w
      = progOutcome (tidesdbStore h₂ hreads₂ clock₂) (fun cs => c₂ cs.2.world) prog r
  := by
  constructor
  · apply progOutcome_eq (skiplistStore_isMap hrand clock)
      (rocksdbStore_isMap h₁ hreads₁ clock₁) hprog
    rw [hs, hw]
  · apply progOutcome_eq (rocksdbStore_isMap h₁ hreads₁ clock₁)
      (tidesdbStore_isMap h₂ hreads₂ clock₂) hprog
    rw [hw, hr]

end Engines

/-! ## Maps with iterators -/

/-- A RocksDB whose iterators are lists of the rows it holds. -/
def rowsRocksdb : RocksdbReads Contents Unit (List (Bytes × Bytes)) where
  get m _ k := (none, m.lookup k, m)
  iterators m :=
    { createIterator := fun _ => listRocksdb.createIterator m
      iterSeek := listRocksdb.iterSeek
      iterValid := listRocksdb.iterValid
      iterKey := listRocksdb.iterKey
      iterValue := listRocksdb.iterValue
      iterNext := listRocksdb.iterNext }

theorem rowsRocksdb_isMap :
  rowsRocksdb.IsMap () id
  := by
  constructor
  case get => exact fun _ _ => ⟨rfl, rfl, rfl⟩
  case iterates =>
    intro m
    constructor
    intro lo
    have hstands : ∀ rows : List (Bytes × Bytes), (rowsRocksdb.iterators m).StandsAt rows rows := by
      intro rows
      induction rows with
      | nil => rfl
      | cons row rows ih => exact ⟨rfl, rfl, rfl, ih⟩
    apply hstands

/-- A TidesDB that holds a map, the writes of its transaction and the rows before its iterator. -/
def rowsTidesdb :
    TidesdbEngine (Contents × List KvWrite × List (Bytes × Bytes)) Unit Unit Unit Unit Unit where
  errLocked := -12
  errConflict := -7
  errNotFound := -3
  txnBegin w _ := (tdbSuccess, (), w.1, [], w.2.2)
  txnPut w _ _ k v _ := (tdbSuccess, w.1, w.2.1 ++ [.put k v], w.2.2)
  txnDelete w _ _ k := (tdbSuccess, w.1, w.2.1 ++ [.del k], w.2.2)
  txnGet w _ _ k := match w.1.lookup k with
    | some v => (tdbSuccess, some ((), v), w)
    | none => (-3, none, w)
  txnCommit w _ := (tdbSuccess, applyAll w.1 w.2.1, [], w.2.2)
  txnFree w _ := w
  iterNew w _ _ := (tdbSuccess, (), w)
  iterSeek w _ lo := (w.1, w.2.1, w.1.entries.filter fun e => lo ≤ e.1)
  iterValid w _ := (¬ w.2.2.isEmpty, w)
  iterKeyValue w _ := (tdbSuccess, ((), (w.2.2.headD ([], [])).1), ((), (w.2.2.headD ([], [])).2), w)
  iterNext w _ := (if w.2.2.tail.isEmpty then -3 else tdbSuccess, w.1, w.2.1, w.2.2.tail)
  iterFree w _ := w
  free w _ := w

theorem rowsTidesdb_isMap :
  rowsTidesdb.IsMap ⟨(), ()⟩ Prod.fst (fun w _ => w.2.1)
  := by
  constructor
  case begin => exact fun _ => ⟨rfl, rfl, rfl⟩
  case write =>
    intro w txn x
    cases x with
    | put k v => exact ⟨rfl, rfl, rfl⟩
    | del k => exact ⟨rfl, rfl, rfl⟩
  case commit => exact fun _ _ => ⟨rfl, rfl⟩
  case free => exact fun _ _ => rfl

theorem rowsTidesdb_reads :
  rowsTidesdb.ReadsMap ⟨(), ()⟩ Prod.fst
  := by
  have hget : ∀ w txn cf k, rowsTidesdb.txnGet w txn cf k = match w.1.lookup k with
    | some v => (tdbSuccess, some ((), v), w)
    | none => (-3, none, w) := fun _ _ _ _ => rfl
  constructor
  case notFound => decide
  case get =>
    intro w txn k
    rw [hget]
    cases w.1.lookup k <;> rfl
  case absent =>
    intro w txn k hlook
    rw [hget, hlook]
    rfl
  case present =>
    intro w txn k v hlook
    use (), w
    rw [hget, hlook]
  case free => exact fun _ _ => rfl
  case iterNew => exact fun _ _ => ⟨rfl, rfl⟩
  case seek =>
    intro w txn lo
    have hstands : ∀ (rows : List (Bytes × Bytes)) m writes,
        rowsTidesdb.StandsAt () (m, writes, rows) rows := by
      intro rows
      induction rows with
      | nil => exact fun _ _ => rfl
      | cons row rows ih =>
        intro m writes
        refine ⟨rfl, (), (), (m, writes, row :: rows), rfl, ?_, ih m writes⟩
        intro hne
        apply if_neg
        change ¬ rows.isEmpty = true
        simpa using hne
    apply hstands

/-- A program that puts a key, finds it, deletes another one and counts the rows. -/
def putAndScan : LuaProg :=
  .call .put [luaString [1], luaString [2]] fun _ =>
    .call .get [luaString [1]] fun _ =>
      .call .del [luaString [3]] fun _ =>
        .scan (luaString []) (luaString [5]) true (fun _ _ => .ret false) .nil fun _ => .ret false

theorem putAndScan_portable :
  putAndScan.Portable
  := by
  apply LuaProg.Portable.call _ (by rintro ⟨⟩)
  intro _
  apply LuaProg.Portable.call _ (by rintro ⟨⟩)
  intro _
  apply LuaProg.Portable.call _ (fun _ _ _ => rfl)
  intro _
  apply LuaProg.Portable.scan (fun _ _ => .ret false) (fun _ _ => .ret false) (fun _ => .ret false)
  exact .inr fun _ _ => rfl

/-- The program on the three engines, with a clock that stands still. -/
theorem progOutcome_engines_example :
  ∃ o : ProgOutcome,
    progOutcome (skiplistStore randLevel_height fun u : Unit => (0, u)) (fun cs => cs.2.contents)
        putAndScan ((), .new 1) = o ∧
      progOutcome (rocksdbStore mapRocksdb_isMap rowsRocksdb_isMap fun u : Unit => (0, u))
        (fun cs => cs.2) putAndScan ((), OrderedMap.empty) = o ∧
      progOutcome (tidesdbStore rowsTidesdb_isMap rowsTidesdb_reads fun u : Unit => (0, u))
        (fun cs => cs.2.world.1) putAndScan ((), ⟨(OrderedMap.empty, [], []), []⟩) = o
  := by
  obtain ⟨hsl, htdb⟩ := progOutcome_engines randLevel_height mapRocksdb_isMap rowsRocksdb_isMap
    rowsTidesdb_isMap rowsTidesdb_reads (fun u : Unit => (0, u)) (fun u : Unit => (0, u))
    (fun u : Unit => (0, u)) putAndScan_portable OrderedMap.empty (s := ((), .new 1)) rfl
    (w := ((), OrderedMap.empty)) rfl (r := ((), ⟨(OrderedMap.empty, [], []), []⟩)) rfl
  use progOutcome (rocksdbStore mapRocksdb_isMap rowsRocksdb_isMap fun u : Unit => (0, u))
    (fun cs => cs.2) putAndScan ((), OrderedMap.empty)
  exact ⟨hsl, rfl, htdb.symm⟩

end Keybench
