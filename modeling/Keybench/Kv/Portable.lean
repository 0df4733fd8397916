import Keybench.Kv.Counters
import Keybench.Kv.Limits

/-!
# Programs that cannot tell stores apart

A store is a map when it answers as the contents it holds (`KvStore.IsMap`).  Two such stores still
differ in their clocks, in what a delete answers and in the row count of a scan that its callback
stops.  A program is portable when it looks at none of these (`LuaProg.Portable`).  On stores with
the same contents a portable program ends in the same way, makes the same calls, counts the same
and leaves the same contents (`runLua_agrees`).
-/

namespace Keybench

/-! ## Stores that are maps -/

section Maps

variable {S : Type}

/-- The reading operations answer as the contents: a range calls back on the leading entries, and
counts them all when no call stops it. -/
structure KvReads.IsMap (reads : KvReads S) (contents : S → Contents) : Prop where
  get : ∀ s k, contents (reads.get s k).2.2 = contents s
  absent : ∀ s k, (contents s).lookup k = none → (reads.get s k).1 = 0
  present : ∀ s k v, (contents s).lookup k = some v →
    0 < (reads.get s k).1 ∧ (reads.get s k).2.1 = v
  rows : ∀ {σ : Type} s lo hi limit (cb : RowCallback σ Bytes Bytes) (st : σ),
    (reads.range s lo hi limit cb st).2
      = (scan cb (leading limit ((contents s).slice lo hi)) st).state
  count : ∀ {σ : Type} s lo hi limit (cb : RowCallback σ Bytes Bytes) (st : σ),
    Passes cb (leading limit ((contents s).slice lo hi)) st →
      (reads.range s lo hi limit cb st).1 = (leading limit ((contents s).slice lo hi)).length

/-- The reading operations of a store. -/
def KvStore.reads (api : KvStore S) : KvReads S where
  get := api.get
  range := api.range
  range_calls := api.range_calls

/-- A store answers as the contents it holds and does its writes in them. -/
structure KvStore.IsMap (api : KvStore S) (contents : S → Contents) : Prop where
  nowNs : ∀ s, contents (api.nowNs s).2 = contents s
  put : ∀ s k v, contents (api.put s k v).2 = (contents s).insert k v
  putbatch : ∀ s kvs, contents (api.putbatch s kvs).2
    = applyAll (contents s) (KvRequest.writes (.putbatch kvs))
  del : ∀ s k, contents (api.del s k).2 = (contents s).erase k
  delbatch : ∀ s ks, contents (api.delbatch s ks).2
    = applyAll (contents s) (KvRequest.writes (.delbatch ks))
  reads : api.reads.IsMap contents

/-- The store over a reliable engine that reads as its contents is a map. -/
theorem KvBackend.Reliable.store_isMap {be : KvBackend S} {contents : S → Contents}
    (hr : be.Reliable contents) (hreads : be.toKvReads.IsMap contents) (h : be.Settles) {C : Type}
    (clock : C → UInt64 × C) :
  (be.store h clock).IsMap (fun cs => contents cs.2)
  := by
  constructor
  case nowNs => exact fun _ => rfl
  case put => exact fun cs k v => hr.contents_storeRequest h cs.2 (.put k v)
  case putbatch => exact fun cs kvs => hr.contents_storeRequest h cs.2 (.putbatch kvs)
  case del => exact fun cs k => hr.contents_storeRequest h cs.2 (.del k)
  case delbatch => exact fun cs ks => hr.contents_storeRequest h cs.2 (.delbatch ks)
  case reads =>
    constructor
    case get => exact fun cs k => hreads.get cs.2 k
    case absent => exact fun cs k => hreads.absent cs.2 k
    case present => exact fun cs k v => hreads.present cs.2 k v
    case rows => exact fun cs lo hi limit cb st => hreads.rows cs.2 lo hi limit cb st
    case count => exact fun cs lo hi limit cb st => hreads.count cs.2 lo hi limit cb st

/-- The store that is its contents, with a clock that stands still. -/
def mapStore : KvStore Contents where
  nowNs m := (0, m)
  put m k v := (0, m.insert k v)
  putbatch m kvs := (0, applyAll m (KvRequest.writes (.putbatch kvs)))
  get m k := match m.lookup k with
    | some v => (1, v, m)
    | none => (0, [], m)
  del m k := (if (m.lookup k).isSome then 1 else 0, m.erase k)
  delbatch m ks := (ks.length, applyAll m (KvRequest.writes (.delbatch ks)))
  range m lo hi limit cb st :=
    let out := scan cb (leading limit (m.slice lo hi)) st
    (out.passed, out.state)
  range_calls _ _ _ _ _ _ := ⟨_, rfl⟩

theorem mapStore_isMap :
  mapStore.IsMap id
  := by
  have hget : ∀ m k, mapStore.get m k = match m.lookup k with
    | some v => (1, v, m)
    | none => (0, [], m) := fun _ _ => rfl
  constructor
  case nowNs => exact fun _ => rfl
  case put => exact fun _ _ _ => rfl
  case putbatch => exact fun _ _ => rfl
  case del => exact fun _ _ => rfl
  case delbatch => exact fun _ _ => rfl
  case reads =>
    constructor
    case get =>
      intro m k
      change (mapStore.get m k).2.2 = m
      rw [hget]
      cases m.lookup k <;> rfl
    case absent =>
      intro m k hlook
      change (mapStore.get m k).1 = 0
      rw [hget, show m.lookup k = none from hlook]
    case present =>
      intro m k v hlook
      change 0 < (mapStore.get m k).1 ∧ (mapStore.get m k).2.1 = v
      rw [hget, show m.lookup k = some v from hlook]
      exact ⟨Int.one_pos, rfl⟩
    case rows => exact fun _ _ _ _ _ _ => rfl
    case count =>
      intro σ m lo hi limit cb st hall
      exact congrArg Nat.cast (passed_of_passes cb _ st hall)

/-- What a lookup that finds this counts as. -/
def lookupEvent : Option Bytes → StatsEvent
  | some _ => .hit
  | none => .miss

/-- A lookup finds what the contents hold. -/
theorem KvReads.IsMap.get_eq {reads : KvReads S} {contents : S → Contents}
    (h : reads.IsMap contents) (s : S) (k : Bytes) :
  foundEvent (reads.get s k).1 = lookupEvent ((contents s).lookup k) ∧
    (if (reads.get s k).1 > 0 then some (reads.get s k).2.1 else none) = (contents s).lookup k
  := by
  cases hlook : (contents s).lookup k with
  | none =>
    rw [foundEvent, h.absent s k hlook]
    exact ⟨rfl, rfl⟩
  | some v =>
    obtain ⟨hpos, hv⟩ := h.present s k v hlook
    rw [foundEvent, if_pos hpos, if_pos hpos, hv]
    exact ⟨rfl, rfl⟩

/-- The lookups of a list find what the contents hold. -/
theorem KvStore.IsMap.storeGets {api : KvStore S} {contents : S → Contents}
    (h : api.IsMap contents) (s : S) (ks : List Bytes) :
  (storeGets api s ks).1.map (fun f => foundEvent f.1)
      = ks.map (fun k => lookupEvent ((contents s).lookup k)) ∧
    (storeGets api s ks).1.map (fun f => if f.1 > 0 then some f.2 else none)
      = ks.map (contents s).lookup ∧
    contents (Keybench.storeGets api s ks).2 = contents s
  := by
  induction ks generalizing s with
  | nil => exact ⟨rfl, rfl, rfl⟩
  | cons k ks ih =>
    have hget : contents (api.get s k).2.2 = contents s := h.reads.get s k
    obtain ⟨hevent, hvalue⟩ := h.reads.get_eq s k
    obtain ⟨ihevent, ihvalue, ihcontents⟩ := ih (api.get s k).2.2
    rw [hget] at ihevent ihvalue ihcontents
    simp only [Keybench.storeGets, List.map_cons, ihevent, ihvalue, ihcontents]
    and_intros
    · exact congrArg (· :: _) hevent
    · exact congrArg (· :: _) hvalue
    · trivial

end Maps

/-! ## Workers that agree -/

section Agreement

variable {S₁ S₂ : Type} (c₁ : S₁ → Contents) (c₂ : S₂ → Contents)

/-- Statistics that differ in their latencies only. -/
structure OpStats.CountsAs (s t : OpStats) : Prop where
  prims : s.primOps = t.primOps
  hits : s.getHits = t.getHits
  misses : s.getMisses = t.getMisses
  errors : s.getErrors = t.getErrors
  calls : ∀ op, (s.h op).count = (t.h op).count

/-- Workers with the same counts on stores with the same contents. -/
structure Worker.Agrees (w₁ : Worker S₁) (w₂ : Worker S₂) : Prop where
  contents : c₁ w₁.store = c₂ w₂.store
  stats : w₁.stats.CountsAs w₂.stats

/-- Runs with the same calls and workers that agree. -/
structure LuaRun.Agrees (r₁ : LuaRun S₁) (r₂ : LuaRun S₂) : Prop where
  worker : r₁.worker.Agrees c₁ c₂ r₂.worker
  made : r₁.made = r₂.made

variable {c₁ c₂}

/-- An event is counted in the same way. -/
theorem OpStats.CountsAs.record {s t : OpStats} (h : s.CountsAs t) (e : StatsEvent) :
  (statsRecord s e).CountsAs (statsRecord t e)
  := by
  obtain ⟨hprims, hhits, hmisses, herrors, hcalls⟩ := h
  constructor
  case calls =>
    intro op
    cases e with
    | latency op' ns =>
      rcases eq_or_ne op op' with rfl | hne
      · simp only [statsRecord, Function.update_self, histRecord, hcalls]
      · simp only [statsRecord, Function.update_of_ne hne, hcalls]
    | _ => apply hcalls
  all_goals cases e <;> simp only [statsRecord, hprims, hhits, hmisses, herrors]

/-- Latencies of one kind are counted in the same way. -/
theorem OpStats.CountsAs.latency {s t : OpStats} (h : s.CountsAs t) (op : KvOp) (ns ns' : UInt64) :
  (statsRecord s (.latency op ns)).CountsAs (statsRecord t (.latency op ns'))
  := by
  obtain ⟨hprims, hhits, hmisses, herrors, hcalls⟩ := h.record (.latency op ns)
  constructor
  case prims => apply hprims
  case hits => apply hhits
  case misses => apply hmisses
  case errors => apply herrors
  case calls =>
    intro op'
    rw [hcalls op']
    rcases eq_or_ne op' op with rfl | hne
    · simp only [statsRecord, Function.update_self, histRecord]
    · simp only [statsRecord, Function.update_of_ne hne]

/-- Statistics that count the same as others, which count the same as a third. -/
theorem OpStats.CountsAs.trans {s t u : OpStats} (h : s.CountsAs t) (h' : t.CountsAs u) :
  s.CountsAs u
  := by
  constructor
  case prims => rw [h.prims, h'.prims]
  case hits => rw [h.hits, h'.hits]
  case misses => rw [h.misses, h'.misses]
  case errors => rw [h.errors, h'.errors]
  case calls =>
    intro op
    rw [h.calls, h'.calls]

namespace Worker.Agrees

variable {w₁ : Worker S₁} {w₂ : Worker S₂}

/-- The same events keep workers in agreement. -/
theorem records (h : w₁.Agrees c₁ c₂ w₂) {events₁ events₂ : List StatsEvent}
    (hevents : events₁ = events₂) :
  (events₁.foldl Worker.record w₁).Agrees c₁ c₂ (events₂.foldl Worker.record w₂)
  := by
  subst hevents
  induction events₁ generalizing w₁ w₂ with
  | nil => apply h
  | cons e events ih =>
    apply ih
    constructor
    case contents => apply h.contents
    case stats => apply h.stats.record

/-- A call of one kind, on stores that it leaves with the same contents, keeps workers in
agreement. -/
theorem recordCall (h : w₁.Agrees c₁ c₂ w₂) {store₁ : S₁} {store₂ : S₂}
    (hstore : c₁ store₁ = c₂ store₂) (op : KvOp) (ns₁ ns₂ : UInt64) (n : ℕ) :
  (w₁.recordCall store₁ op ns₁ n).Agrees c₁ c₂ (w₂.recordCall store₂ op ns₂ n)
  := by
  constructor
  case contents => apply hstore
  case stats => apply (h.stats.latency op ns₁ ns₂).record (.prim n)

end Worker.Agrees

end Agreement

/-! ## Verbs -/

/-- Options that are both absent, or both present and followed by the same relation, are related. -/
theorem rel_bind {α β β' : Type} {r : β → β' → Prop} {f : α → Option β} {f' : α → Option β'}
    (x : Option α) (h : ∀ a, Option.Rel r (f a) (f' a)) :
  Option.Rel r (x >>= f) (x >>= f')
  := by
  cases x with
  | none => exact .none
  | some a => apply h

section Verbs

variable {S₁ S₂ : Type} {api₁ : KvStore S₁} {api₂ : KvStore S₂} {c₁ : S₁ → Contents}
  {c₂ : S₂ → Contents} (h₁ : api₁.IsMap c₁) (h₂ : api₂.IsMap c₂)

/-- The answers of a verb are the same, apart from the boolean of a delete. -/
def KvVerb.Alike (verb : KvVerb) (a₁ a₂ : LuaAnswer) : Prop :=
  match verb with
  | .del => ∃ b₁ b₂, a₁ = .boolean b₁ ∧ a₂ = .boolean b₂
  | _ => a₁ = a₂

/-- Calls that are both rejected, or answer alike and leave workers in agreement. -/
def CallsAgree (c₁ : S₁ → Contents) (c₂ : S₂ → Contents) (verb : KvVerb) :
    Option (LuaAnswer × Worker S₁) → Option (LuaAnswer × Worker S₂) → Prop :=
  Option.Rel fun x₁ x₂ => verb.Alike x₁.1 x₂.1 ∧ x₁.2.Agrees c₁ c₂ x₂.2

include h₁ h₂

/-- A verb on workers that agree. -/
theorem kvCall_agrees {w₁ : Worker S₁} {w₂ : Worker S₂} (hw : w₁.Agrees c₁ c₂ w₂)
    (args : List LuaArg) (verb : KvVerb) :
  CallsAgree c₁ c₂ verb (kvCall api₁ args w₁ verb) (kvCall api₂ args w₂ verb)
  := by
  have hstart : c₁ (api₁.nowNs w₁.store).2 = c₂ (api₂.nowNs w₂.store).2 := by
    rw [h₁.nowNs, h₂.nowNs, hw.contents]
  cases verb with
  | put =>
    apply rel_bind
    intro k
    apply rel_bind
    intro v
    apply Option.Rel.some
    use rfl
    apply hw.recordCall
    rw [h₁.nowNs, h₂.nowNs, h₁.put, h₂.put, hstart]
  | get =>
    apply rel_bind
    intro k
    obtain ⟨hevent₁, hvalue₁⟩ := h₁.reads.get_eq (api₁.nowNs w₁.store).2 k
    obtain ⟨hevent₂, hvalue₂⟩ := h₂.reads.get_eq (api₂.nowNs w₂.store).2 k
    rw [← hstart] at hevent₂ hvalue₂
    apply Option.Rel.some
    use congrArg LuaAnswer.value (hvalue₁.trans hvalue₂.symm)
    apply Worker.Agrees.records _ (congrArg (fun e => [e]) (hevent₁.trans hevent₂.symm))
    apply hw.recordCall
    rw [h₁.nowNs, h₂.nowNs]
    exact (h₁.reads.get _ k).trans (hstart.trans (h₂.reads.get _ k).symm)
  | del =>
    apply rel_bind
    intro k
    apply Option.Rel.some
    use ⟨_, _, rfl, rfl⟩
    apply hw.recordCall
    rw [h₁.nowNs, h₂.nowNs, h₁.del, h₂.del, hstart]
  | range =>
    apply rel_bind
    intro lo
    apply rel_bind
    intro hi
    apply rel_bind
    intro limit
    apply Option.Rel.some
    constructor
    · apply congrArg LuaAnswer.rows
      refine (h₁.reads.rows _ lo hi (toCInt limit) collectCb []).trans
        (Eq.trans ?_ (h₂.reads.rows _ lo hi (toCInt limit) collectCb []).symm)
      rw [hstart]
    · apply hw.recordCall
      rw [h₁.nowNs, h₂.nowNs, hstart]
  | mget =>
    simp only [kvCall, lMget]
    cases luaArg args 1 with
    | table len geti getfield =>
      apply rel_bind
      intro ks
      obtain ⟨hevents₁, hvalues₁, hcontents₁⟩ := h₁.storeGets (api₁.nowNs w₁.store).2 ks
      obtain ⟨hevents₂, hvalues₂, hcontents₂⟩ := h₂.storeGets (api₂.nowNs w₂.store).2 ks
      rw [← hstart] at hevents₂ hvalues₂ hcontents₂
      apply Option.Rel.some
      use congrArg LuaAnswer.values (hvalues₁.trans hvalues₂.symm)
      simp only [← List.foldl_map (f := fun f : ℤ × Bytes => foundEvent f.1) (g := Worker.record)]
      apply Worker.Agrees.records _ (hevents₁.trans hevents₂.symm)
      apply hw.recordCall
      rw [h₁.nowNs, h₂.nowNs, hcontents₁, hcontents₂]
    | _ => exact .none
  | mput =>
    simp only [kvCall, lMput]
    cases luaArg args 1 with
    | table len geti getfield =>
      apply rel_bind
      intro kvs
      apply Option.Rel.some
      use rfl
      apply hw.recordCall
      rw [h₁.nowNs, h₂.nowNs, h₁.putbatch, h₂.putbatch, hstart]
    | _ => exact .none
  | mdel =>
    simp only [kvCall, lMdel]
    cases luaArg args 1 with
    | table len geti getfield =>
      apply rel_bind
      intro ks
      apply Option.Rel.some
      use rfl
      apply hw.recordCall
      rw [h₁.nowNs, h₂.nowNs, h₁.delbatch, h₂.delbatch, hstart]
    | _ => exact .none

end Verbs

/-! ## Scans -/

/-- A scan whose callback never asks it to stop ends early only by an error. -/
theorem passes_of_not_raised {σ : Type} {fn : σ → Bytes → Bytes → LuaEnd × σ}
    (hfn : ∀ st k v, (fn st k v).1 ≠ .returned true) (rows : List (Bytes × Bytes)) (st : σ)
    (h : (scan (scanCb fn) rows (st, false)).state.2 = false) :
  Passes (scanCb fn) rows (st, false)
  := by
  induction rows generalizing st with
  | nil => trivial
  | cons row rows ih =>
    obtain ⟨k, v⟩ := row
    obtain ⟨ending, st', heq⟩ : ∃ ending st', fn st k v = (ending, st') := ⟨_, _, rfl⟩
    have hne := hfn st k v
    rw [heq] at hne
    cases ending with
    | raised =>
      have hcb : scanCb fn (st, false) k v = (1, (st', true)) := by rw [scanCb, heq]
      rw [scan_cons_stop (by rw [hcb]; exact one_ne_zero), hcb] at h
      cases h
    | returned stop =>
      obtain rfl : stop = false := by
        cases stop with
        | true => exact absurd rfl hne
        | false => rfl
      have hcb : scanCb fn (st, false) k v = (0, (st', false)) := by
        rw [scanCb, heq]
        rfl
      rw [scan_cons_pass (by rw [hcb]), hcb] at h
      rw [Passes, hcb]
      exact ⟨rfl, ih st' h⟩

/-- A scan after its range. -/
theorem lScan_of_range {S : Type} {api : KvStore S} {fn : LuaRun S → Bytes → Bytes → LuaEnd × LuaRun S}
    {lo hi : Bytes} {limit : ℤ} {r r' : LuaRun S} {n : ℤ} {err : Bool}
    (h : api.range (api.nowNs r.worker.store).2 lo hi (toCInt limit) (scanCb fn)
      ({ r with worker := { r.worker with store := (api.nowNs r.worker.store).2 } }, false)
      = (n, (r', err))) :
  lScan api fn lo hi limit r = (scanAnswer n err,
    { r' with
      worker := r'.worker.recordCall (api.nowNs r'.worker.store).2 .range
        ((api.nowNs r'.worker.store).1 - (api.nowNs r.worker.store).1) 1 })
  := by
  rw [lScan]
  simp only [h]
  rfl

section Scans

variable {S₁ S₂ : Type} {api₁ : KvStore S₁} {api₂ : KvStore S₂} {c₁ : S₁ → Contents}
  {c₂ : S₂ → Contents} (h₁ : api₁.IsMap c₁) (h₂ : api₂.IsMap c₂)
  {fn₁ : LuaRun S₁ → Bytes → Bytes → LuaEnd × LuaRun S₁}
  {fn₂ : LuaRun S₂ → Bytes → Bytes → LuaEnd × LuaRun S₂}

include h₁ h₂

/-- A scan on runs that agree, with callbacks that keep them so.  The answers are the same, unless
a call on a row stops the scan: then they are two row counts. -/
theorem lScan_agrees
    (hfn : ∀ r₁ r₂ k v, LuaRun.Agrees c₁ c₂ r₁ r₂ →
      (fn₁ r₁ k v).1 = (fn₂ r₂ k v).1 ∧ LuaRun.Agrees c₁ c₂ (fn₁ r₁ k v).2 (fn₂ r₂ k v).2)
    (lo hi : Bytes) (limit : ℤ) {r₁ : LuaRun S₁} {r₂ : LuaRun S₂} (hr : r₁.Agrees c₁ c₂ r₂) :
  (lScan api₁ fn₁ lo hi limit r₁).2.Agrees c₁ c₂ (lScan api₂ fn₂ lo hi limit r₂).2 ∧
    ((lScan api₁ fn₁ lo hi limit r₁).1 = (lScan api₂ fn₂ lo hi limit r₂).1 ∨
      (∃ n₁ n₂, (lScan api₁ fn₁ lo hi limit r₁).1 = .integer n₁ ∧
        (lScan api₂ fn₂ lo hi limit r₂).1 = .integer n₂) ∧
      ∃ r k v, (fn₁ r k v).1 = .returned true)
  := by
  let start₁ : LuaRun S₁ :=
    { r₁ with worker := { r₁.worker with store := (api₁.nowNs r₁.worker.store).2 } }
  let start₂ : LuaRun S₂ :=
    { r₂ with worker := { r₂.worker with store := (api₂.nowNs r₂.worker.store).2 } }
  have hstart : c₁ start₁.worker.store = c₂ start₂.worker.store := by
    change c₁ (api₁.nowNs r₁.worker.store).2 = c₂ (api₂.nowNs r₂.worker.store).2
    rw [h₁.nowNs, h₂.nowNs, hr.worker.contents]
  have hagrees : start₁.Agrees c₁ c₂ start₂ := ⟨⟨hstart, hr.worker.stats⟩, hr.made⟩
  let rows := leading (toCInt limit) ((c₁ start₁.worker.store).slice lo hi)
  have hcb : ∀ (st₁ : LuaRun S₁ × Bool) (st₂ : LuaRun S₂ × Bool) k v,
      st₁.1.Agrees c₁ c₂ st₂.1 ∧ st₁.2 = st₂.2 →
      (scanCb fn₁ st₁ k v).1 = (scanCb fn₂ st₂ k v).1 ∧
        (scanCb fn₁ st₁ k v).2.1.Agrees c₁ c₂ (scanCb fn₂ st₂ k v).2.1 ∧
        (scanCb fn₁ st₁ k v).2.2 = (scanCb fn₂ st₂ k v).2.2 := by
    rintro ⟨r₁, err₁⟩ ⟨r₂, err₂⟩ k v ⟨hr, rfl⟩
    obtain ⟨hend, hnext⟩ := hfn r₁ r₂ k v hr
    obtain ⟨e₁, r₁', heq₁⟩ : ∃ e r', fn₁ r₁ k v = (e, r') := ⟨_, _, rfl⟩
    obtain ⟨e₂, r₂', heq₂⟩ : ∃ e r', fn₂ r₂ k v = (e, r') := ⟨_, _, rfl⟩
    rw [heq₁, heq₂] at hend hnext
    obtain rfl : e₁ = e₂ := hend
    simp only [scanCb, heq₁, heq₂]
    cases e₁ with
    | returned stop => exact ⟨rfl, hnext, rfl⟩
    | raised => exact ⟨rfl, hnext, rfl⟩
  obtain ⟨hpasses, -, hstate, herr⟩ := scan_related hcb rows (start₁, false) (start₂, false)
    ⟨hagrees, rfl⟩
  have hrows₁ := h₁.reads.rows start₁.worker.store lo hi (toCInt limit) (scanCb fn₁) (start₁, false)
  have hrows₂ := h₂.reads.rows start₂.worker.store lo hi (toCInt limit) (scanCb fn₂) (start₂, false)
  have hcount₁ := h₁.reads.count start₁.worker.store lo hi (toCInt limit) (scanCb fn₁)
    (start₁, false)
  have hcount₂ := h₂.reads.count start₂.worker.store lo hi (toCInt limit) (scanCb fn₂)
    (start₂, false)
  rw [← hstart] at hrows₂ hcount₂
  obtain ⟨⟨n₁, r₁', err₁⟩, hrange₁⟩ : ∃ out, api₁.reads.range start₁.worker.store lo hi
    (toCInt limit) (scanCb fn₁) (start₁, false) = out := ⟨_, rfl⟩
  obtain ⟨⟨n₂, r₂', err₂⟩, hrange₂⟩ : ∃ out, api₂.reads.range start₂.worker.store lo hi
    (toCInt limit) (scanCb fn₂) (start₂, false) = out := ⟨_, rfl⟩
  rw [hrange₁] at hrows₁ hcount₁
  rw [hrange₂] at hrows₂ hcount₂
  rw [← hrows₁, ← hrows₂] at hstate herr
  obtain rfl : err₁ = err₂ := herr
  rw [lScan_of_range hrange₁, lScan_of_range hrange₂]
  constructor
  · constructor
    case made => apply hstate.made
    case worker =>
      apply hstate.worker.recordCall
      rw [h₁.nowNs, h₂.nowNs, hstate.worker.contents]
  · cases err₁ with
    | true => exact .inl rfl
    | false =>
      rcases Classical.em (Passes (scanCb fn₁) rows (start₁, false)) with hall | hstopped
      · left
        have hn : n₁ = n₂ := (hcount₁ hall).trans (hcount₂ (hpasses.mp hall)).symm
        rw [hn]
      · right
        use ⟨n₁, n₂, rfl, rfl⟩
        by_contra hfalse
        apply hstopped
        apply passes_of_not_raised _ rows start₁ (congrArg Prod.snd hrows₁).symm
        intro r k v hend
        apply hfalse
        exact ⟨r, k, v, hend⟩

end Scans

/-! ## Programs -/

/-- The verbs that write nothing. -/
def KvVerb.reads : KvVerb → Bool
  | .get | .range | .mget => true
  | .put | .del | .mput | .mdel => false

namespace LuaProg

/-- The program writes nothing. -/
inductive ReadOnly : LuaProg → Prop where
  | ret (truthy : Bool) : ReadOnly (.ret truthy)
  | raise : ReadOnly .raise
  | call {verb : KvVerb} {args : List LuaArg} {next : LuaAnswer → LuaProg} :
    verb.reads = true → (∀ a, (next a).ReadOnly) → ReadOnly (.call verb args next)
  | scan {lo hi : LuaArg} {callable : Bool} {fn : Bytes → Bytes → LuaProg} {limit : LuaArg}
    {next : LuaAnswer → LuaProg} :
    (∀ k v, (fn k v).ReadOnly) → (∀ a, (next a).ReadOnly) →
      ReadOnly (.scan lo hi callable fn limit next)

/-- The program returns nothing that is true. -/
inductive NeverTrue : LuaProg → Prop where
  | ret : NeverTrue (.ret false)
  | raise : NeverTrue .raise
  | call {verb : KvVerb} {args : List LuaArg} {next : LuaAnswer → LuaProg} :
    (∀ a, (next a).NeverTrue) → NeverTrue (.call verb args next)
  | scan {lo hi : LuaArg} {callable : Bool} {fn : Bytes → Bytes → LuaProg} {limit : LuaArg}
    {next : LuaAnswer → LuaProg} :
    (∀ a, (next a).NeverTrue) → NeverTrue (.scan lo hi callable fn limit next)

/-- The program does not look at the answers of deletes, nor at the row count of a scan that its
callback may stop.  The callbacks write nothing, since the skiplist calls them with its lock
held. -/
inductive Portable : LuaProg → Prop where
  | ret (truthy : Bool) : Portable (.ret truthy)
  | raise : Portable .raise
  | call {verb : KvVerb} {args : List LuaArg} {next : LuaAnswer → LuaProg} :
    (∀ a, (next a).Portable) → (verb = .del → ∀ b b', next (.boolean b) = next (.boolean b')) →
      Portable (.call verb args next)
  | scan {lo hi : LuaArg} {callable : Bool} {fn : Bytes → Bytes → LuaProg} {limit : LuaArg}
    {next : LuaAnswer → LuaProg} :
    (∀ k v, (fn k v).ReadOnly) → (∀ k v, (fn k v).Portable) → (∀ a, (next a).Portable) →
      ((∀ k v, (fn k v).NeverTrue) ∨ ∀ n n', next (.integer n) = next (.integer n')) →
      Portable (.scan lo hi callable fn limit next)

end LuaProg

/-- A program that returns nothing that is true does not end so. -/
theorem LuaProg.NeverTrue.runLua {S : Type} (api : KvStore S) {prog : LuaProg}
    (h : prog.NeverTrue) (r : LuaRun S) :
  (runLua api prog r).1 ≠ .returned true
  := by
  induction h generalizing r with
  | ret => exact fun h => by cases h
  | raise => exact fun h => by cases h
  | call _ ih =>
    rw [Keybench.runLua]
    split
    · apply ih
    · apply ih
  | scan _ ih =>
    rw [Keybench.runLua]
    split
    · apply ih
    · apply ih

/-! ## Steps -/

/-- One verb of a program, and what is left of the program after it. -/
def LuaProg.step {S : Type} (api : KvStore S) : LuaProg → LuaRun S → Option (LuaProg × LuaRun S)
  | .ret _, _ => none
  | .raise, _ => none
  | .call verb args next, r =>
    match kvCall api args r.worker verb with
    | none => some (next .raised, r)
    | some (answer, worker) => some (next answer, ⟨worker, r.made ++ [verb.made args]⟩)
  | .scan lo hi callable fn limit next, r =>
    match scanArgs lo hi callable limit with
    | none => some (next .raised, r)
    | some (lo, hi, limit) =>
      let (answer, r) := lScan api (fun r k v => runLua api (fn k v) r) lo hi limit r
      some (next answer, { r with made := r.made ++ [.scan] })

/-- A verb that is not rejected. -/
theorem LuaProg.step_call {S : Type} {api : KvStore S} {verb : KvVerb} {args : List LuaArg}
    {next : LuaAnswer → LuaProg} {r : LuaRun S} {answer : LuaAnswer} {worker : Worker S}
    (h : kvCall api args r.worker verb = some (answer, worker)) :
  (LuaProg.call verb args next).step api r
    = some (next answer, ⟨worker, r.made ++ [verb.made args]⟩)
  := by
  rw [LuaProg.step, h]

/-- A scan that is not rejected. -/
theorem LuaProg.step_scan {S : Type} {api : KvStore S} {lo hi : LuaArg} {callable : Bool}
    {fn : Bytes → Bytes → LuaProg} {limit : LuaArg} {next : LuaAnswer → LuaProg} {r r' : LuaRun S}
    {lo' hi' : Bytes} {limit' : ℤ} {answer : LuaAnswer}
    (hargs : scanArgs lo hi callable limit = some (lo', hi', limit'))
    (h : lScan api (fun r k v => runLua api (fn k v) r) lo' hi' limit' r = (answer, r')) :
  (LuaProg.scan lo hi callable fn limit next).step api r
    = some (next answer, { r' with made := r'.made ++ [.scan] })
  := by
  rw [LuaProg.step, hargs]
  simp only [h]

/-- A run goes on with what is left of the program. -/
theorem runLua_of_step {S : Type} {api : KvStore S} {prog prog' : LuaProg} {r r' : LuaRun S}
    (h : prog.step api r = some (prog', r')) :
  runLua api prog r = runLua api prog' r'
  := by
  cases prog with
  | ret truthy => cases h
  | raise => cases h
  | call verb args next =>
    rw [runLua]
    rw [LuaProg.step] at h
    cases hcall : kvCall api args r.worker verb with
    | none =>
      rw [hcall] at h
      obtain ⟨rfl, rfl⟩ := Prod.mk.inj (Option.some.inj h)
      rfl
    | some x =>
      rw [hcall] at h
      obtain ⟨rfl, rfl⟩ := Prod.mk.inj (Option.some.inj h)
      rfl
  | scan lo hi callable fn limit next =>
    rw [runLua]
    rw [LuaProg.step] at h
    cases hargs : scanArgs lo hi callable limit with
    | none =>
      rw [hargs] at h
      obtain ⟨rfl, rfl⟩ := Prod.mk.inj (Option.some.inj h)
      rfl
    | some x =>
      rw [hargs] at h
      obtain ⟨rfl, rfl⟩ := Prod.mk.inj (Option.some.inj h)
      rfl

section Runs

variable {S₁ S₂ : Type} {api₁ : KvStore S₁} {api₂ : KvStore S₂} {c₁ : S₁ → Contents}
  {c₂ : S₂ → Contents} (h₁ : api₁.IsMap c₁) (h₂ : api₂.IsMap c₂)

/-- Steps that go on with the same one of some programs, on runs that agree. -/
def StepsAgree (c₁ : S₁ → Contents) (c₂ : S₂ → Contents) (next : LuaAnswer → LuaProg)
    (x₁ : Option (LuaProg × LuaRun S₁)) (x₂ : Option (LuaProg × LuaRun S₂)) : Prop :=
  ∃ a r₁ r₂, x₁ = some (next a, r₁) ∧ x₂ = some (next a, r₂) ∧ r₁.Agrees c₁ c₂ r₂

include h₁ h₂

/-- A verb of a program that does not look at the answer of a delete. -/
theorem call_agrees {verb : KvVerb} {args : List LuaArg} {next : LuaAnswer → LuaProg}
    (hdel : verb = .del → ∀ b b', next (.boolean b) = next (.boolean b')) {r₁ : LuaRun S₁}
    {r₂ : LuaRun S₂} (hr : r₁.Agrees c₁ c₂ r₂) :
  StepsAgree c₁ c₂ next ((LuaProg.call verb args next).step api₁ r₁)
    ((LuaProg.call verb args next).step api₂ r₂)
  := by
  rw [LuaProg.step, LuaProg.step]
  have hcall := kvCall_agrees h₁ h₂ hr.worker args verb
  generalize kvCall api₁ args r₁.worker verb = x₁ at hcall ⊢
  generalize kvCall api₂ args r₂.worker verb = x₂ at hcall ⊢
  cases hcall with
  | none => exact ⟨_, _, _, rfl, rfl, hr⟩
  | @some x₁ x₂ h =>
    obtain ⟨a₁, w₁⟩ := x₁
    obtain ⟨a₂, w₂⟩ := x₂
    obtain ⟨halike, hw⟩ := h
    have hnext : next a₂ = next a₁ := by
      cases verb with
      | del =>
        obtain ⟨b₁, b₂, rfl, rfl⟩ := halike
        apply hdel rfl
      | _ => exact congrArg next halike.symm
    use a₁, ⟨w₁, r₁.made ++ [verb.made args]⟩, ⟨w₂, r₂.made ++ [verb.made args]⟩, rfl
    constructor
    · rw [← hnext]
    · exact ⟨hw, congrArg (· ++ [verb.made args]) hr.made⟩

/-- A scan of a program that does not look at the row count if the callback may stop it. -/
theorem scan_agrees {lo hi : LuaArg} {callable : Bool} {fn : Bytes → Bytes → LuaProg}
    {limit : LuaArg} {next : LuaAnswer → LuaProg}
    (hlook : (∀ k v, (fn k v).NeverTrue) ∨ ∀ n n', next (.integer n) = next (.integer n'))
    (hfn : ∀ r₁ r₂ k v, LuaRun.Agrees c₁ c₂ r₁ r₂ →
      (runLua api₁ (fn k v) r₁).1 = (runLua api₂ (fn k v) r₂).1 ∧
        LuaRun.Agrees c₁ c₂ (runLua api₁ (fn k v) r₁).2 (runLua api₂ (fn k v) r₂).2)
    {r₁ : LuaRun S₁} {r₂ : LuaRun S₂} (hr : r₁.Agrees c₁ c₂ r₂) :
  StepsAgree c₁ c₂ next ((LuaProg.scan lo hi callable fn limit next).step api₁ r₁)
    ((LuaProg.scan lo hi callable fn limit next).step api₂ r₂)
  := by
  rw [LuaProg.step, LuaProg.step]
  cases scanArgs lo hi callable limit with
  | none => exact ⟨_, _, _, rfl, rfl, hr⟩
  | some x =>
    obtain ⟨lo, hi, limit⟩ := x
    obtain ⟨hafter, hanswer⟩ := lScan_agrees h₁ h₂ hfn lo hi limit hr
    have hnext : next (lScan api₂ (fun r k v => runLua api₂ (fn k v) r) lo hi limit r₂).1
        = next (lScan api₁ (fun r k v => runLua api₁ (fn k v) r) lo hi limit r₁).1 := by
      rcases hanswer with heq | ⟨⟨n₁, n₂, heq₁, heq₂⟩, r, k, v, htrue⟩
      · rw [heq]
      · rw [heq₁, heq₂]
        rcases hlook with hnever | hlook
        · exact absurd htrue ((hnever k v).runLua api₁ r)
        · apply hlook
    refine ⟨_, _, _, rfl, congrArg some (Prod.ext hnext rfl), ?_⟩
    exact ⟨hafter.worker, congrArg (· ++ [KvMade.scan]) hafter.made⟩

omit h₁ h₂ in
/-- Runs end alike when they do so after steps that agree. -/
theorem StepsAgree.runLua {prog : LuaProg} {next : LuaAnswer → LuaProg} {r₁ : LuaRun S₁}
    {r₂ : LuaRun S₂} (h : StepsAgree c₁ c₂ next (prog.step api₁ r₁) (prog.step api₂ r₂))
    (hnext : ∀ a (r₁ : LuaRun S₁) (r₂ : LuaRun S₂), r₁.Agrees c₁ c₂ r₂ →
      (runLua api₁ (next a) r₁).1 = (runLua api₂ (next a) r₂).1 ∧
        (runLua api₁ (next a) r₁).2.Agrees c₁ c₂ (runLua api₂ (next a) r₂).2) :
  (Keybench.runLua api₁ prog r₁).1 = (Keybench.runLua api₂ prog r₂).1 ∧
    (Keybench.runLua api₁ prog r₁).2.Agrees c₁ c₂ (Keybench.runLua api₂ prog r₂).2
  := by
  obtain ⟨a, r₁', r₂', hstep₁, hstep₂, hr⟩ := h
  rw [runLua_of_step hstep₁, runLua_of_step hstep₂]
  apply hnext a _ _ hr

/-- A portable program on two stores that are maps, with workers that agree. -/
theorem runLua_agrees {prog : LuaProg} (hprog : prog.Portable) {r₁ : LuaRun S₁} {r₂ : LuaRun S₂}
    (hr : r₁.Agrees c₁ c₂ r₂) :
  (runLua api₁ prog r₁).1 = (runLua api₂ prog r₂).1 ∧
    (runLua api₁ prog r₁).2.Agrees c₁ c₂ (runLua api₂ prog r₂).2
  := by
  induction hprog generalizing r₁ r₂ with
  | ret truthy => exact ⟨rfl, hr⟩
  | raise => exact ⟨rfl, hr⟩
  | call hnext hdel ih =>
    apply (call_agrees h₁ h₂ hdel hr).runLua
    exact fun a _ _ => ih a
  | scan hreads hfn hnext hlook ihfn ihnext =>
    apply (scan_agrees h₁ h₂ hlook (fun _ _ k v => ihfn k v) hr).runLua
    exact fun a _ _ => ihnext a

/-- A step of a portable program leaves a portable program. -/
theorem step_agrees {prog : LuaProg} (hprog : prog.Portable) {r₁ : LuaRun S₁} {r₂ : LuaRun S₂}
    (hr : r₁.Agrees c₁ c₂ r₂) :
  Option.Rel (fun x₁ x₂ => x₁.1 = x₂.1 ∧ x₁.1.Portable ∧ x₁.2.Agrees c₁ c₂ x₂.2)
    (prog.step api₁ r₁) (prog.step api₂ r₂)
  := by
  cases hprog with
  | ret truthy => exact .none
  | raise => exact .none
  | call hnext hdel =>
    obtain ⟨a, r₁', r₂', hstep₁, hstep₂, hr'⟩ := call_agrees h₁ h₂ hdel hr
    rw [hstep₁, hstep₂]
    exact .some ⟨rfl, hnext a, hr'⟩
  | scan hreads hfn hnext hlook =>
    obtain ⟨a, r₁', r₂', hstep₁, hstep₂, hr'⟩ := scan_agrees h₁ h₂ hlook
      (fun _ _ k v => runLua_agrees h₁ h₂ (hfn k v)) hr
    rw [hstep₁, hstep₂]
    exact .some ⟨rfl, hnext a, hr'⟩

end Runs

end Keybench
