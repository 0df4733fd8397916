import Keybench.Workload.Measure

/-!
# Workers never fail

With parameters in range, no call of `load` or of `run` raises an error, whatever the numbers that
are drawn and whatever the store answers, errors included: so no loader and no worker ever fails, in
no interleaving (`measure_sound`).  A program is sound when its verbs accept their arguments and it
raises no error after any answer that they may give.
-/

namespace Keybench

open Interleave

/-! ## Sound programs -/

/-- An answer that a verb may give when it accepts its arguments. -/
inductive KvVerb.Answers : KvVerb → LuaAnswer → Prop
  | put : Answers .put .nothing
  | get (v : Option Bytes) : Answers .get (.value v)
  | del (b : Bool) : Answers .del (.boolean b)
  | range (rows : List (Bytes × Bytes)) : Answers .range (.rows rows)
  | mget (vs : List (Option Bytes)) : Answers .mget (.values vs)
  | mput : Answers .mput .nothing
  | mdel (n : ℤ) : Answers .mdel (.integer n)

/-- A verb accepts some arguments, whatever the store. -/
def KvVerb.Accepts (verb : KvVerb) (args : List LuaArg) : Prop :=
  ∀ (S : Type) (api : KvStore S) (w : Worker S), kvCall api args w verb ≠ none

/-- The verbs of a program accept their arguments, and it raises no error. -/
inductive LuaProg.Sound : LuaProg → Prop
  | ret (truthy : Bool) : Sound (.ret truthy)
  | call {verb : KvVerb} {args : List LuaArg} {next : LuaAnswer → LuaProg} :
    verb.Accepts args → (∀ a, verb.Answers a → (next a).Sound) → Sound (.call verb args next)
  | scan {lo hi : LuaArg} {callable : Bool} {fn : Bytes → Bytes → LuaProg} {limit : LuaArg}
    {next : LuaAnswer → LuaProg} :
    scanArgs lo hi callable limit ≠ none → (∀ k v, (fn k v).Sound) →
      (∀ n, (next (.integer n)).Sound) → Sound (.scan lo hi callable fn limit next)

/-- The answers of the verbs. -/
theorem kvCall_answers {S : Type} {api : KvStore S} {args : List LuaArg} {w w' : Worker S}
    {verb : KvVerb} {a : LuaAnswer} (h : kvCall api args w verb = some (a, w')) :
  verb.Answers a
  := by
  cases verb with
  | put =>
    obtain ⟨k, -, h⟩ := Option.bind_eq_some_iff.mp h
    obtain ⟨v, -, h⟩ := Option.bind_eq_some_iff.mp h
    obtain ⟨rfl, -⟩ := Prod.mk.inj (Option.some.inj h)
    exact .put
  | get =>
    obtain ⟨k, -, h⟩ := Option.bind_eq_some_iff.mp h
    obtain ⟨rfl, -⟩ := Prod.mk.inj (Option.some.inj h)
    exact .get _
  | del =>
    obtain ⟨k, -, h⟩ := Option.bind_eq_some_iff.mp h
    obtain ⟨rfl, -⟩ := Prod.mk.inj (Option.some.inj h)
    exact .del _
  | range =>
    obtain ⟨lo, -, h⟩ := Option.bind_eq_some_iff.mp h
    obtain ⟨hi, -, h⟩ := Option.bind_eq_some_iff.mp h
    obtain ⟨limit, -, h⟩ := Option.bind_eq_some_iff.mp h
    obtain ⟨rfl, -⟩ := Prod.mk.inj (Option.some.inj h)
    exact .range _
  | mget =>
    rw [kvCall, lMget] at h
    split at h
    · obtain ⟨ks, -, h⟩ := Option.bind_eq_some_iff.mp h
      obtain ⟨rfl, -⟩ := Prod.mk.inj (Option.some.inj h)
      exact .mget _
    · cases h
  | mput =>
    rw [kvCall, lMput] at h
    split at h
    · obtain ⟨kvs, -, h⟩ := Option.bind_eq_some_iff.mp h
      obtain ⟨rfl, -⟩ := Prod.mk.inj (Option.some.inj h)
      exact .mput
    · cases h
  | mdel =>
    rw [kvCall, lMdel] at h
    split at h
    · obtain ⟨ks, -, h⟩ := Option.bind_eq_some_iff.mp h
      obtain ⟨rfl, -⟩ := Prod.mk.inj (Option.some.inj h)
      exact .mdel _
    · cases h

section Runs

variable {S : Type} (api : KvStore S)

/-- A scan whose callback raises no error raises none. -/
theorem lScan_integer {fn : LuaRun S → Bytes → Bytes → LuaEnd × LuaRun S}
    (hfn : ∀ r k v, (fn r k v).1 ≠ .raised) (lo hi : Bytes) (limit : ℤ) (r : LuaRun S) :
  ∃ n, (lScan api fn lo hi limit r).1 = .integer n
  := by
  let start : LuaRun S :=
    { r with worker := { r.worker with store := (api.nowNs r.worker.store).2 } }
  obtain ⟨rows, hrows⟩ := api.range_calls (api.nowNs r.worker.store).2 lo hi (toCInt limit)
    (scanCb fn) (start, false)
  have hcb : ∀ st k v, st.2 = false → (scanCb fn st k v).2.2 = false := by
    rintro ⟨r, err⟩ k v hr
    have hne := hfn r k v
    rw [scanCb]
    split
    case h_1 heq =>
      rw [heq] at hne
      exact absurd rfl hne
    case h_2 heq => apply hr
  have hstate := scan_state_of_step (P := fun st : LuaRun S × Bool => st.2 = false) hcb rows
    (start, false) rfl
  rw [← hrows] at hstate
  obtain ⟨n, r', hrange⟩ : ∃ n r', api.range (api.nowNs r.worker.store).2 lo hi (toCInt limit)
      (scanCb fn) (start, false) = (n, (r', false)) :=
    ⟨_, _, Prod.ext rfl (Prod.ext rfl hstate)⟩
  use n
  rw [lScan_of_range hrange]
  rfl

/-- A sound program ends without an error. -/
theorem LuaProg.Sound.runLua {prog : LuaProg} (h : prog.Sound) (r : LuaRun S) :
  (runLua api prog r).1 ≠ .raised
  := by
  induction h generalizing r with
  | ret truthy => exact fun h => by cases h
  | @call verb args next haccepts hnext ih =>
    rw [Keybench.runLua]
    cases hcall : kvCall api args r.worker verb with
    | none => exact absurd hcall (haccepts S api r.worker)
    | some x =>
      obtain ⟨a, w'⟩ := x
      apply ih a (kvCall_answers hcall)
  | @scan lo hi callable fn limit next haccepts hfn hnext ihfn ihnext =>
    rw [Keybench.runLua]
    cases hargs : scanArgs lo hi callable limit with
    | none => exact absurd hargs haccepts
    | some x =>
      obtain ⟨lo', hi', limit'⟩ := x
      obtain ⟨n, hn⟩ := lScan_integer api (fun r k v => ihfn k v r) lo' hi' limit' r
      simp only [hn]
      apply ihnext

/-- A step of a sound program leaves a sound program, and a sound program that can take no step has
returned. -/
theorem LuaProg.Sound.step {prog : LuaProg} (h : prog.Sound) (r : LuaRun S) :
  (∃ truthy, prog = .ret truthy) ∨ ∃ prog' r', prog.step api r = some (prog', r') ∧ prog'.Sound
  := by
  cases h with
  | ret truthy => exact .inl ⟨truthy, rfl⟩
  | @call verb args next haccepts hnext =>
    right
    cases hcall : kvCall api args r.worker verb with
    | none => exact absurd hcall (haccepts S api r.worker)
    | some x =>
      obtain ⟨a, w'⟩ := x
      exact ⟨_, _, LuaProg.step_call hcall, hnext a (kvCall_answers hcall)⟩
  | @scan lo hi callable fn limit next haccepts hfn hnext =>
    right
    cases hargs : scanArgs lo hi callable limit with
    | none => exact absurd hargs haccepts
    | some x =>
      obtain ⟨lo', hi', limit'⟩ := x
      obtain ⟨n, hn⟩ := lScan_integer api (fun r k v => (hfn k v).runLua api r) lo' hi' limit' r
      exact ⟨_, _, LuaProg.step_scan hargs (Prod.ext hn rfl), hnext n⟩

end Runs

/-- Sound programs one after the other. -/
theorem LuaProg.Sound.andThen {prog prog' : LuaProg} (h : prog.Sound) (h' : prog'.Sound) :
  (prog.andThen prog').Sound
  := by
  induction h with
  | ret truthy => apply h'
  | call haccepts hnext ih => exact .call haccepts ih
  | scan haccepts hfn hnext ihfn ihnext => exact .scan haccepts hfn ihnext

/-! ## The calls of the workloads -/

/-- A call whose answer is discarded. -/
theorem callOnce_sound {verb : KvVerb} {args : List LuaArg} (h : verb.Accepts args) :
  (callOnce verb args).Sound
  := by
  apply LuaProg.Sound.call h
  intro a ha
  have hne : a ≠ .raised := by
    rintro rfl
    cases ha
  rw [if_neg hne]
  exact .ret false

/-- A verb on a key. -/
theorem accepts_key (k : Bytes) {verb : KvVerb} (h : verb = .get ∨ verb = .del) :
  verb.Accepts [luaString k]
  := by
  intro S api w
  rcases h with rfl | rfl
  · exact Option.some_ne_none _
  · exact Option.some_ne_none _

/-- A put. -/
theorem accepts_put (k v : Bytes) :
  KvVerb.Accepts .put [luaString k, luaString v]
  := fun _ _ _ => Option.some_ne_none _

/-- A read of a list of keys. -/
theorem accepts_mget (ks : List Bytes) :
  KvVerb.Accepts .mget [luaKeys ks]
  := by
  intro S api w
  obtain ⟨geti, getfield, harg, hgeti⟩ := luaKeys_isKeys ks
  have hread := luaStrings_take hgeti
  rw [harg]
  generalize (ks.length : ℤ) = len at hread
  have hlist : luaArg [.table len geti getfield] 1 = .table len geti getfield := rfl
  rw [kvCall, lMget, hlist]
  simp only [hread, Option.bind_eq_bind, Option.bind_some]
  exact Option.some_ne_none _

/-- A write of a list of pairs. -/
theorem accepts_mput (kvs : List (Bytes × Bytes)) :
  KvVerb.Accepts .mput [luaPairList kvs]
  := by
  intro S api w
  obtain ⟨w', hcall, -⟩ := kvCall_mput_prims api (luaPairList_isPairs kvs) w
  rw [hcall]
  exact Option.some_ne_none _

/-- Deletes of some keys. -/
theorem delAll_sound (ks : List Bytes) :
  (delAll ks).Sound
  := by
  induction ks with
  | nil => exact .ret false
  | cons k ks ih =>
    apply LuaProg.Sound.call (accepts_key k (.inr rfl))
    intro a ha
    cases ha
    exact ih

/-- Reading the range of a user. -/
theorem rangeOfUser_sound {uid : ℤ} (huid : 0 ≤ uid) {next : List (Bytes × Bytes) → LuaProg}
    (h : ∀ rows, (next rows).Sound) :
  (rangeOfUser uid next).Sound
  := by
  rw [rangeOfUser, cartBounds, if_neg (not_lt.mpr huid)]
  apply LuaProg.Sound.call
  · exact fun _ _ _ => Option.some_ne_none _
  · intro a ha
    cases ha with
    | range rows => apply h

/-- The operations of cart. -/
theorem CartOp.prog_sound {op : CartOp} (huser : 0 ≤ op.user) :
  op.prog.Sound
  := by
  cases op with
  | view uid => exact rangeOfUser_sound huser fun _ => .ret false
  | checkout uid => exact rangeOfUser_sound huser fun _ => delAll_sound _
  | add uid iid | update uid iid => exact callOnce_sound (accepts_put _ _)
  | get uid iid => exact callOnce_sound (accepts_key _ (.inl rfl))
  | remove uid iid => exact callOnce_sound (accepts_key _ (.inr rfl))

section Workloads

variable {G : Type} {rng : LuaRandom G} {hot : ℤ → G → ℤ × G} {items : ℤ}

/-- The calls of mixed and of valsize. -/
theorem IndexCall.sound {value : Option Bytes} {verb : KvVerb} {args : List LuaArg}
    (h : IndexCall value items verb args) :
  (callOnce verb args).Sound
  := by
  apply callOnce_sound
  cases h with
  | get i => exact accepts_key _ (.inl rfl)
  | put i v => exact accepts_put _ _
  | del i => exact accepts_key _ (.inr rfl)
  | range start hlt hargs =>
    rw [windowArgs] at hargs
    obtain ⟨lo, -, hargs⟩ := Option.bind_eq_some_iff.mp hargs
    obtain ⟨hi, -, hargs⟩ := Option.bind_eq_some_iff.mp hargs
    obtain rfl := Option.some.inj hargs
    exact fun _ _ _ => Option.some_ne_none _

/-- A call of `run`. -/
theorem Workload.Call.sound {W : Workload} {prog : LuaProg} (h : W.Call items prog) :
  prog.Sound
  := by
  cases h with
  | mixed hcall | valsize hcall => apply hcall.sound
  | scan start =>
    apply LuaProg.Sound.scan _ (fun _ _ => .ret false) (fun _ => .ret false)
    exact Option.some_ne_none _
  | mget js => exact callOnce_sound (accepts_mget _)
  | mput js => exact callOnce_sound (accepts_mput _)
  | cart op huser => exact CartOp.prog_sound huser.1

/-! ## Draws -/

section Draws

variable (rng)

/-- An index can be drawn when there is one. -/
theorem exists_rnd (hitems : 1 ≤ items) (g : G) :
  ∃ (j : ℕ) (g' : G), rnd rng items g = some ((j : ℤ), g') ∧ key j = some (indexKey j)
  := by
  have hmem := rng.random_mem g 0 (items - 1) (by omega)
  obtain ⟨j, hj⟩ := Int.eq_ofNat_of_zero_le hmem.1
  use j, (rng.random g 0 (items - 1)).2
  constructor
  · rw [rnd, if_neg (by omega), ← hj]
  · apply key_of_nonneg (Int.natCast_nonneg j)

/-- `run` of mixed and of valsize makes a call. -/
theorem exists_indexRun (value : Bytes) (hitems : 1 ≤ items) (hfits : items + scanWindow ≤ 2 ^ 63)
    (g : G) :
  ∃ verb args g', indexRun rng (some value) items g = some ((verb, args), g')
  := by
  obtain ⟨j, g', hdraw, hkey⟩ := exists_rnd rng hitems (rng.random g 1 100).2
  have hend : (j : ℤ) + scanWindow < 2 ^ 63 :=
    lt_of_lt_of_le (Int.add_lt_add_right (rnd_spec rng hdraw).2 _) hfits
  rw [indexRun, if_neg (not_lt.mpr hitems)]
  dsimp only
  split_ifs
  case neg =>
    exact ⟨_, _, _, Option.bind_eq_some_iff.mpr
      ⟨_, hdraw, Option.bind_eq_some_iff.mpr ⟨_, windowArgs_of_lt hend, rfl⟩⟩⟩
  all_goals
    exact ⟨_, _, _, Option.bind_eq_some_iff.mpr
      ⟨_, hdraw, Option.bind_eq_some_iff.mpr ⟨_, hkey, rfl⟩⟩⟩

/-- A buffer can be filled when there is an index. -/
theorem exists_fillBuf {α : Type} (make : Bytes → α) (hitems : 1 ≤ items) (n j : ℕ)
    (st : List α × G) :
  ∃ st', fillBuf rng make items j n st = some st'
  := by
  induction n generalizing j st with
  | zero => exact ⟨st, rfl⟩
  | succ n ih =>
    obtain ⟨i, g', hdraw, hkey⟩ := exists_rnd rng hitems st.2
    obtain ⟨st', hfill⟩ := ih (j + 1) (luaSet st.1 j (make (indexKey i)), g')
    use st'
    simp only [fillBuf, hdraw, hkey, Option.bind_eq_bind, Option.bind_some, hfill]

/-- `run` of batch makes a call. -/
theorem exists_batchRun (hitems : 1 ≤ items) {b : ℤ} (hb : 1 ≤ b) (st : WorkloadState G) :
  ∃ prog st', batchRun rng items b st = some (prog, st')
  := by
  simp only [batchRun, if_neg (not_lt.mpr hb), if_neg (not_lt.mpr hitems)]
  split_ifs
  · obtain ⟨st', hfill⟩ := exists_fillBuf rng id hitems (max 1 b).toNat 0
      (st.mgetBuf, (rng.random st.gen 1 100).2)
    rw [hfill]
    exact ⟨_, _, rfl⟩
  · obtain ⟨st', hfill⟩ := exists_fillBuf rng (fun k => (k, indexValue)) hitems
      (max 1 b).toNat 0 (st.mputBuf, (rng.random st.gen 1 100).2)
    rw [hfill]
    exact ⟨_, _, rfl⟩

/-- `run` of scan makes a call. -/
theorem exists_scanRun (hitems : 1 ≤ items) (g : G) :
  ∃ prog g', scanRun rng items g = some (prog, g')
  := by
  have hmem := rng.random_mem g 0 (max 0 (items - scanRunWindow)) (le_max_left _ _)
  have hend : 0 ≤ (rng.random g 0 (max 0 (items - scanRunWindow))).1 + scanRunWindow := by
    apply add_nonneg hmem.1 (by decide)
  simp only [scanRun, if_neg (not_lt.mpr hitems), key_of_nonneg hmem.1, key_of_nonneg hend,
    Option.bind_eq_bind, Option.bind_some]
  exact ⟨_, _, rfl⟩

end Draws

/-- The users that are drawn are users. -/
def DrawsUsers (hot : ℤ → G → ℤ × G) : Prop :=
  ∀ users g, 1 ≤ users → 0 ≤ (hot users g).1 ∧ (hot users g).1 < users

/-- The first user is always a user. -/
theorem drawsUsers_first :
  DrawsUsers fun (_ : ℤ) (g : G) => (0, g)
  := fun _ _ husers => ⟨le_rfl, husers⟩

/-- With parameters in range, a call of `run` raises no error before its first verb. -/
theorem exists_run (rng : LuaRandom G) (hhot : DrawsUsers hot) {W : Workload}
    (hW : W.Accepted items) (hfits : W.WindowsFit items) (st : WorkloadState G) :
  ∃ prog st', W.run rng hot items st = some (prog, st')
  := by
  cases W with
  | mixed =>
    obtain ⟨verb, args, g', hrun⟩ := exists_indexRun rng indexValue hW hfits st.gen
    use callOnce verb args, { st with gen := g' }
    simp only [Workload.run, mixedRun, hrun, Option.bind_eq_bind, Option.bind_some]
  | scan =>
    obtain ⟨prog, g', hrun⟩ := exists_scanRun rng hW st.gen
    use prog, { st with gen := g' }
    simp only [Workload.run, hrun, Option.bind_eq_bind, Option.bind_some]
  | batch b => exact exists_batchRun rng hW.1 hW.2 st
  | valsize valuebytes =>
    obtain ⟨hitems, hvalue⟩ := hW
    obtain ⟨verb, args, g', hrun⟩ := exists_indexRun rng
      (List.replicate valuebytes.toNat (chr 'v')) hitems hfits st.gen
    use callOnce verb args, { st with gen := g' }
    simp only [Workload.run, valsizeRun, valueFor, if_neg (not_lt.mpr hvalue), hrun,
      Option.bind_eq_bind, Option.bind_some]
  | cart users =>
    obtain ⟨hitems, husers⟩ := hW
    obtain ⟨hlo, hhi⟩ := hhot users st.gen husers
    have huser : hotUser hot users st.gen = some (hot users st.gen) := by
      rw [hotUser, if_neg (not_lt.mpr husers)]
      apply if_neg
      omega
    have hpick : ∀ g, ∃ iid g', pickItem rng (hot users st.gen).1 items g = some (iid, g') := by
      intro g
      rw [pickItem, if_neg (not_lt.mpr hitems)]
      exact ⟨_, _, rfl⟩
    obtain ⟨iid, g', hitem⟩ := hpick (rng.random (hot users st.gen).2 1 100).2
    obtain ⟨op, g'', hop⟩ : ∃ op g'', cartRun rng hot users items st.gen = some (op, g'') := by
      simp only [cartRun, huser, hitem, Option.bind_eq_bind, Option.bind_some]
      split_ifs
      all_goals exact ⟨_, _, rfl⟩
    use op.prog, { st with gen := g'' }
    simp only [Workload.run, hop, Option.bind_eq_bind, Option.bind_some]

/-! ## Threads -/

/-- Handing batches over. -/
theorem mputAll_sound (batches : List (List (Bytes × Bytes))) :
  (mputAll batches).Sound
  := by
  induction batches with
  | nil => exact .ret false
  | cons kvs rest ih =>
    apply LuaProg.Sound.call (accepts_mput kvs)
    intro a ha
    cases ha
    exact ih

/-- With parameters in range, `load` raises no error before its first batch. -/
theorem exists_load (rng : LuaRandom G) {W : Workload} (hW : W.Accepted items) {T t : ℕ}
    (ht : t < T) (g : G) :
  ∃ batches, W.load rng items t T g = some batches
  := by
  have hindex : ∀ {b : ℕ} (value : Bytes), 0 < b → 1 ≤ items →
      ∃ batches, indexLoad b value items t T = some batches := by
    intro b value hb hitems
    obtain ⟨batches, hload, -⟩ := indexLoad_spec hb value hitems ht
    exact ⟨batches, hload⟩
  cases W with
  | mixed | scan => exact hindex indexValue (by norm_num) hW
  | batch b => exact hindex indexValue (by norm_num) hW.1
  | valsize valuebytes =>
    simp only [Workload.load, valsizeLoad, valueFor, if_neg (not_lt.mpr hW.2)]
    exact hindex _ (by norm_num) hW.1
  | cart users =>
    obtain ⟨lines, hload, -⟩ := cartLoad_flatten rng hW.1 users t T g
    simp only [Workload.load, hload]
    exact ⟨_, rfl⟩

/-- A loader. -/
theorem loader_sound {W : Workload} (hW : W.Accepted items) {T t : ℕ} (ht : t < T) (g : G) :
  (W.loader rng items t T g).Sound
  := by
  obtain ⟨batches, hload⟩ := exists_load rng hW ht g
  rw [Workload.loader, hload]
  apply mputAll_sound

/-- A worker. -/
theorem worker_sound (hhot : DrawsUsers hot) {W : Workload} (hW : W.Accepted items)
    (hfits : W.WindowsFit items) (n : ℕ) (g : G) :
  (W.worker rng hot items n g).Sound
  := by
  have hgo : ∀ n (st : WorkloadState G), W.Bounded st →
      (workerProg (fun st => W.run rng hot items st) n st).Sound := by
    intro n
    induction n with
    | zero => exact fun _ _ => .ret false
    | succ n ih =>
      intro st hst
      obtain ⟨prog, st', hrun⟩ := exists_run rng hhot hW hfits st
      obtain ⟨hcall, hst'⟩ := W.run_call hst hrun
      rw [workerProg, hrun]
      apply hcall.sound.andThen (ih st' hst')
  apply hgo
  cases W with
  | batch b => exact ⟨Nat.zero_le _, Nat.zero_le _⟩
  | _ => trivial

/-- A thread has returned or can take its next verb. -/
def LuaThreads.GoesOn {S ι : Type} [DecidableEq ι] (api : KvStore S) (x : LuaThreads S ι) (t : ι) :
    Prop :=
  (x.thread t).prog.returned ∨ luaStep api x t ≠ none

/-- Threads that begin with sound programs. -/
theorem goesOn_of_sound {S ι : Type} [DecidableEq ι] {api : KvStore S} {progs : ι → LuaProg}
    (hprogs : ∀ t, (progs t).Sound) {s : S} {ts : List ι} {x : LuaThreads S ι}
    (hrun : run (luaStep api) (.begin s progs) ts = some x) (t : ι) :
  x.GoesOn api t
  := by
  have hsound : (x.thread t).prog.Sound := by
    apply (run_luaStep_induct (I := fun _ => True) (J := fun _ y => y.prog.Sound) _ trivial hprogs
      hrun).2
    intro _ y s prog' r' hy _ hstep
    rcases hy.step api ⟨⟨s, y.stats⟩, y.made⟩ with ⟨truthy, hret⟩ | ⟨prog'', r'', hstep', hnext⟩
    · rw [hret] at hstep
      cases hstep
    · obtain ⟨rfl, -⟩ := Prod.mk.inj (Option.some.inj (hstep.symm.trans hstep'))
      exact ⟨trivial, hnext⟩
  rcases hsound.step api (x.run t) with ⟨truthy, hret⟩ | ⟨prog', r', hstep, -⟩
  · left
    rw [hret]
    rfl
  · right
    rw [luaStep, hstep]
    exact Option.some_ne_none _

/-- No loader of a measurement fails, and no worker whose windows do not wrap, in any interleaving
on any store: each of them has returned or can take its next verb. -/
theorem measure_sound (hhot : DrawsUsers hot) {W : Workload} (hW : W.Accepted items)
    {S : Type} (api : KvStore S) {T N : ℕ} (calls : Fin N → ℕ) (g : Fin T → G) (h : Fin N → G)
    (s : S) :
  (∀ ts x, run (luaStep api) (.begin s fun t : Fin T => W.loader rng items t T (g t)) ts = some x →
      ∀ t, x.GoesOn api t) ∧
    (W.WindowsFit items →
      ∀ ts us y, W.measure rng hot items api calls g h ts us s = some y → ∀ n, y.GoesOn api n)
  := by
  constructor
  · intro ts x hrun t
    exact goesOn_of_sound (fun t => loader_sound hW t.isLt (g t)) hrun t
  · intro hfits ts us y hrun n
    obtain ⟨x, -, hrun⟩ := Option.bind_eq_some_iff.mp hrun
    split_ifs at hrun
    exact goesOn_of_sound (fun n => worker_sound hhot hW hfits (calls n) (h n)) hrun n

end Workloads

/-- A measurement of mixed on a store that forgets what is put, by two loaders and two workers: the
first has put once, the second has asked for its two windows. -/
theorem measure_sound_example :
  ∃ y : LuaThreads Unit (Fin 2),
    Workload.mixed.measure steadyRandom (fun _ g => (0, g)) 3 oneRowStore (fun _ => 2)
      (fun _ : Fin 2 => 0) (fun n => 70 + 25 * n.val.toUInt32) [1, 0] [0, 1, 1] () = some y ∧
    ∀ n, y.GoesOn oneRowStore n
  := by
  obtain ⟨y, hrun⟩ : ∃ y : LuaThreads Unit (Fin 2),
      Workload.mixed.measure steadyRandom (fun _ g => (0, g)) 3 oneRowStore (fun _ => 2)
        (fun _ : Fin 2 => 0) (fun n => 70 + 25 * n.val.toUInt32) [1, 0] [0, 1, 1] () = some y :=
    ⟨_, rfl⟩
  have hmixed : Workload.mixed.Accepted 3 := by
    rw [Workload.Accepted]
    decide
  have hfits : Workload.mixed.WindowsFit 3 := by
    rw [Workload.WindowsFit]
    decide
  exact ⟨y, hrun, (measure_sound drawsUsers_first hmixed oneRowStore _ _ _ ()).2 hfits _ _ y hrun⟩

end Keybench
