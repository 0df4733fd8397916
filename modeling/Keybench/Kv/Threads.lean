import Keybench.Kv.Portable
import Keybench.Lib.Interleave

/-!
# Programs that share a store

The workers of a measurement run their programs on one store, a verb at a time and in any order.
On stores with the same contents, portable programs that take their verbs in the same order count
the same, each for itself, and leave the same contents (`run_luaStep_agrees`).  When every program
only writes pairs of some kind, a store that holds only such pairs does so at each moment
(`run_luaStep_holdsOnly`).
-/

namespace Keybench

open Interleave

variable {S ι : Type}

/-- A thread that runs a program. -/
structure LuaThread where
  /-- What is left of the program. -/
  prog : LuaProg
  /-- The statistics of the thread's worker. -/
  stats : OpStats
  /-- The calls that were not rejected, in the order in which they ended. -/
  made : List KvMade

/-- Threads on one store. -/
structure LuaThreads (S ι : Type) where
  /-- The store. -/
  store : S
  /-- The threads. -/
  thread : ι → LuaThread

/-- A thread that has not begun. -/
def LuaThread.start (prog : LuaProg) : LuaThread := ⟨prog, statsReset, []⟩

/-- The run of a thread so far. -/
def LuaThreads.run (c : LuaThreads S ι) (t : ι) : LuaRun S :=
  ⟨⟨c.store, (c.thread t).stats⟩, (c.thread t).made⟩

section Step

variable [DecidableEq ι] (api : KvStore S)

/-- A thread takes its next verb, unless its program has ended. -/
def luaStep (c : LuaThreads S ι) (t : ι) : Option (LuaThreads S ι) := do
  let (prog, r) ← (c.thread t).prog.step api (c.run t)
  some ⟨r.worker.store, Function.update c.thread t ⟨prog, r.worker.stats, r.made⟩⟩

end Step

section Runs

variable [DecidableEq ι] {api : KvStore S}

/-- What a step of a thread does. -/
theorem luaStep_eq {x x' : LuaThreads S ι} {t : ι} (h : luaStep api x t = some x') :
  ∃ prog' r', (x.thread t).prog.step api ⟨⟨x.store, (x.thread t).stats⟩, (x.thread t).made⟩
      = some (prog', r') ∧ x'.store = r'.worker.store ∧
    x'.thread t = ⟨prog', r'.worker.stats, r'.made⟩ ∧ ∀ u ≠ t, x'.thread u = x.thread u
  := by
  obtain ⟨⟨prog', r'⟩, hprog, h⟩ := Option.bind_eq_some_iff.mp h
  obtain rfl := Option.some.inj h
  exact ⟨prog', r', hprog, rfl, Function.update_self .., fun u hne => Function.update_of_ne hne ..⟩

/-- What each step keeps of the store, and of the store and the thread that takes it, holds after
every run, when the changes that the others make to the store do not harm it. -/
theorem run_luaStep_rely {I : S → Prop} {J : ι → S → LuaThread → Prop} {R : S → S → Prop}
    (hstep : ∀ t y s prog' r', I s → J t s y →
      y.prog.step api ⟨⟨s, y.stats⟩, y.made⟩ = some (prog', r') →
      I r'.worker.store ∧ J t r'.worker.store ⟨prog', r'.worker.stats, r'.made⟩ ∧
        R s r'.worker.store)
    (hstable : ∀ t s s' y, R s s' → J t s y → J t s' y) {x x' : LuaThreads S ι} (hI : I x.store)
    (hJ : ∀ t, J t x.store (x.thread t)) {ts : List ι} (hrun : run (luaStep api) x ts = some x') :
  I x'.store ∧ ∀ t, J t x'.store (x'.thread t)
  := by
  refine run_rely LuaThreads.store LuaThreads.thread (R := R) ?_ ?_ hstable
    hrun hI hJ
  · intro x t x' hnext
    obtain ⟨_, _, -, -, -, hothers⟩ := luaStep_eq hnext
    apply hothers
  · intro x t x' hI hJ hnext
    obtain ⟨prog', r', hprog, hstore, hthread, -⟩ := luaStep_eq hnext
    rw [hstore, hthread]
    exact hstep t (x.thread t) x.store prog' r' hI hJ hprog

/-- What each step keeps of the store and of the thread that takes it, holds after every run. -/
theorem run_luaStep_induct {I : S → Prop} {J : ι → LuaThread → Prop}
    (hstep : ∀ t (y : LuaThread) (s : S) prog' r', J t y → I s →
      y.prog.step api ⟨⟨s, y.stats⟩, y.made⟩ = some (prog', r') →
      I r'.worker.store ∧ J t ⟨prog', r'.worker.stats, r'.made⟩)
    {x x' : LuaThreads S ι} (hI : I x.store) (hJ : ∀ t, J t (x.thread t)) {ts : List ι}
    (hrun : run (luaStep api) x ts = some x') :
  I x'.store ∧ ∀ t, J t (x'.thread t)
  := by
  apply run_luaStep_rely (J := fun t _ y => J t y) (R := fun _ _ => True) _ _ hI hJ hrun
  · intro t y s prog' r' hI hJ hprog
    obtain ⟨hI', hJ'⟩ := hstep t y s prog' r' hJ hI hprog
    exact ⟨hI', hJ', trivial⟩
  · exact fun _ _ _ _ _ hJ => hJ

/-- The program that is left when a program has ended. -/
def LuaEnd.left : LuaEnd → LuaProg
  | .returned truthy => .ret truthy
  | .raised => .raise

/-- A thread that takes all its verbs with none of another between them runs a program to its
end. -/
def RunsOut (api : KvStore S) (t : ι) (x : LuaThreads S ι) (prog : LuaProg) : Prop :=
  ∃ n x', run (luaStep api) x (List.replicate n t) = some x' ∧
    x'.run t = (runLua api prog (x.run t)).2 ∧
    (x'.thread t).prog = (runLua api prog (x.run t)).1.left ∧
    ∀ u ≠ t, x'.thread u = x.thread u

/-- A thread runs a program to its end when it does so after a step. -/
theorem RunsOut.of_step {t : ι} {x : LuaThreads S ι} {prog prog' : LuaProg} {r' : LuaRun S}
    (hprog : (x.thread t).prog = prog) (hstep : prog.step api (x.run t) = some (prog', r'))
    (h : ∀ x' : LuaThreads S ι, (x'.thread t).prog = prog' → RunsOut api t x' prog') :
  RunsOut api t x prog
  := by
  let x₁ : LuaThreads S ι :=
    ⟨r'.worker.store, Function.update x.thread t ⟨prog', r'.worker.stats, r'.made⟩⟩
  have hthread : x₁.thread t = ⟨prog', r'.worker.stats, r'.made⟩ := Function.update_self ..
  have hnext : luaStep api x t = some x₁ := by
    rw [luaStep, hprog, hstep]
    rfl
  have hrun₁ : x₁.run t = r' := by rw [LuaThreads.run, hthread]
  obtain ⟨n, x', hrun, hresult, hleft, hothers⟩ := h x₁ (by rw [hthread])
  rw [hrun₁, ← runLua_of_step hstep] at hresult hleft
  use n + 1, x'
  rw [List.replicate_succ, run, hnext]
  refine ⟨hrun, hresult, hleft, ?_⟩
  intro u hne
  rw [hothers u hne]
  apply Function.update_of_ne hne

/-- A thread by itself runs its program. -/
theorem runsOut (t : ι) {prog : LuaProg} (x : LuaThreads S ι) (hprog : (x.thread t).prog = prog) :
  RunsOut api t x prog
  := by
  induction prog generalizing x with
  | ret truthy => exact ⟨0, x, rfl, rfl, hprog, fun _ _ => rfl⟩
  | raise => exact ⟨0, x, rfl, rfl, hprog, fun _ _ => rfl⟩
  | call verb args next ih =>
    obtain ⟨a, r', hstep⟩ : ∃ a r',
        (LuaProg.call verb args next).step api (x.run t) = some (next a, r') := by
      rw [LuaProg.step]
      split <;> exact ⟨_, _, rfl⟩
    apply RunsOut.of_step hprog hstep
    intro x' hx'
    apply ih a x' hx'
  | scan lo hi callable fn limit next ihfn ihnext =>
    obtain ⟨a, r', hstep⟩ : ∃ a r',
        (LuaProg.scan lo hi callable fn limit next).step api (x.run t) = some (next a, r') := by
      rw [LuaProg.step]
      split <;> exact ⟨_, _, rfl⟩
    apply RunsOut.of_step hprog hstep
    intro x' hx'
    apply ihnext a x' hx'

end Runs

/-! ## Agreement -/

section Agreement

variable {S₁ S₂ : Type}

/-- Threads with the same portable program left, the same calls made and the same counts. -/
structure LuaThread.Agrees (x₁ x₂ : LuaThread) : Prop where
  prog : x₁.prog = x₂.prog
  portable : x₁.prog.Portable
  stats : x₁.stats.CountsAs x₂.stats
  made : x₁.made = x₂.made

/-- Threads that agree, each with its own, on stores with the same contents. -/
structure LuaThreads.Agrees (c₁ : S₁ → Contents) (c₂ : S₂ → Contents) (x₁ : LuaThreads S₁ ι)
    (x₂ : LuaThreads S₂ ι) : Prop where
  contents : c₁ x₁.store = c₂ x₂.store
  thread : ∀ t, (x₁.thread t).Agrees (x₂.thread t)

variable [DecidableEq ι] {api₁ : KvStore S₁} {api₂ : KvStore S₂} {c₁ : S₁ → Contents}
  {c₂ : S₂ → Contents}

/-- Threads on stores that are maps, when they take their verbs in the same order. -/
theorem run_luaStep_agrees (h₁ : api₁.IsMap c₁) (h₂ : api₂.IsMap c₂) {x₁ : LuaThreads S₁ ι}
    {x₂ : LuaThreads S₂ ι} (hx : x₁.Agrees c₁ c₂ x₂) (ts : List ι) :
  Option.Rel (LuaThreads.Agrees c₁ c₂) (run (luaStep api₁) x₁ ts) (run (luaStep api₂) x₂ ts)
  := by
  apply run_related _ hx
  intro x₁ x₂ t hx
  obtain ⟨hprog, hportable, hstats, hmade⟩ := hx.thread t
  have hruns : (x₁.run t).Agrees c₁ c₂ (x₂.run t) := ⟨⟨hx.contents, hstats⟩, hmade⟩
  have hstep := step_agrees h₁ h₂ hportable hruns
  rw [luaStep, luaStep, ← hprog]
  generalize (x₁.thread t).prog.step api₁ (x₁.run t) = y₁ at hstep ⊢
  generalize (x₁.thread t).prog.step api₂ (x₂.run t) = y₂ at hstep ⊢
  cases hstep with
  | none => exact .none
  | some h =>
    obtain ⟨hleft, hportable', hagrees⟩ := h
    apply Option.Rel.some
    constructor
    case contents => apply hagrees.worker.contents
    case thread =>
      intro u
      rcases eq_or_ne u t with rfl | hne
      · simp only [Function.update_self]
        exact ⟨hleft, hportable', hagrees.worker.stats, hagrees.made⟩
      · simp only [Function.update_of_ne hne]
        apply hx.thread u

end Agreement

/-! ## What is written -/

/-- The writes of a call, none when it is rejected. -/
def KvVerb.writes (args : List LuaArg) : KvVerb → List KvWrite
  | .put => (do
      let k ← luaLChecklstring (luaArg args 1)
      let v ← luaLChecklstring (luaArg args 2)
      some [KvWrite.put k v]).getD []
  | .del => (do
      let k ← luaLChecklstring (luaArg args 1)
      some [KvWrite.del k]).getD []
  | .mput =>
    match luaArg args 1 with
    | .table len geti _ => (do
        let kvs ← luaPairs geti 0 (listCount len)
        some (KvRequest.writes (.putbatch kvs))).getD []
    | _ => []
  | .mdel =>
    match luaArg args 1 with
    | .table len geti _ => (do
        let ks ← luaStrings geti 0 (listCount len)
        some (KvRequest.writes (.delbatch ks))).getD []
    | _ => []
  | .get | .range | .mget => []

/-- Recorded lookups leave the store. -/
theorem store_foldl_record (events : List StatsEvent) (w : Worker S) :
  (events.foldl Worker.record w).store = w.store
  := by
  induction events generalizing w with
  | nil => rfl
  | cons e events ih => apply ih

/-- A call does its writes in the contents. -/
theorem kvCall_contents {api : KvStore S} {c : S → Contents} (h : api.IsMap c) {verb : KvVerb}
    {args : List LuaArg} {w w' : Worker S} {a : LuaAnswer}
    (hcall : kvCall api args w verb = some (a, w')) :
  c w'.store = applyAll (c w.store) (verb.writes args)
  := by
  cases verb with
  | put =>
    obtain ⟨k, hk, hcall⟩ := Option.bind_eq_some_iff.mp hcall
    obtain ⟨v, hv, hcall⟩ := Option.bind_eq_some_iff.mp hcall
    obtain ⟨-, rfl⟩ := Prod.mk.inj (Option.some.inj hcall)
    change c (api.nowNs _).2 = _
    rw [h.nowNs, h.put, h.nowNs, KvVerb.writes, hk, hv]
    rfl
  | get =>
    obtain ⟨k, -, hcall⟩ := Option.bind_eq_some_iff.mp hcall
    obtain ⟨-, rfl⟩ := Prod.mk.inj (Option.some.inj hcall)
    change c (api.nowNs _).2 = _
    rw [h.nowNs]
    exact (h.reads.get _ k).trans (h.nowNs _)
  | del =>
    obtain ⟨k, hk, hcall⟩ := Option.bind_eq_some_iff.mp hcall
    obtain ⟨-, rfl⟩ := Prod.mk.inj (Option.some.inj hcall)
    change c (api.nowNs _).2 = _
    rw [h.nowNs, h.del, h.nowNs, KvVerb.writes, hk]
    rfl
  | range =>
    obtain ⟨lo, -, hcall⟩ := Option.bind_eq_some_iff.mp hcall
    obtain ⟨hi, -, hcall⟩ := Option.bind_eq_some_iff.mp hcall
    obtain ⟨limit, -, hcall⟩ := Option.bind_eq_some_iff.mp hcall
    obtain ⟨-, rfl⟩ := Prod.mk.inj (Option.some.inj hcall)
    change c (api.nowNs _).2 = _
    rw [h.nowNs, h.nowNs]
    rfl
  | mget =>
    rw [kvCall, lMget] at hcall
    split at hcall
    · obtain ⟨ks, -, hcall⟩ := Option.bind_eq_some_iff.mp hcall
      obtain ⟨-, rfl⟩ := Prod.mk.inj (Option.some.inj hcall)
      obtain ⟨-, -, hcontents⟩ := h.storeGets (api.nowNs w.store).2 ks
      simp only [← List.foldl_map (f := fun f : ℤ × Bytes => foundEvent f.1) (g := Worker.record),
        store_foldl_record]
      change c (api.nowNs _).2 = _
      rw [h.nowNs, hcontents, h.nowNs]
      rfl
    · cases hcall
  | mput =>
    rw [kvCall, lMput] at hcall
    split at hcall
    · rename_i len geti _ harg
      obtain ⟨kvs, hkvs, hcall⟩ := Option.bind_eq_some_iff.mp hcall
      obtain ⟨-, rfl⟩ := Prod.mk.inj (Option.some.inj hcall)
      change c (api.nowNs _).2 = _
      rw [h.nowNs, h.putbatch, h.nowNs, KvVerb.writes, harg]
      simp only [hkvs, Option.bind_eq_bind, Option.bind_some, Option.getD_some]
    · cases hcall
  | mdel =>
    rw [kvCall, lMdel] at hcall
    split at hcall
    · rename_i len geti _ harg
      obtain ⟨ks, hks, hcall⟩ := Option.bind_eq_some_iff.mp hcall
      obtain ⟨-, rfl⟩ := Prod.mk.inj (Option.some.inj hcall)
      change c (api.nowNs _).2 = _
      rw [h.nowNs, h.delbatch, h.nowNs, KvVerb.writes, harg]
      simp only [hks, Option.bind_eq_bind, Option.bind_some, Option.getD_some]
    · cases hcall

section Writes

variable (P : Bytes → Bytes → Prop)

/-- Contents with pairs of one kind only. -/
def HoldsOnly (m : Contents) : Prop := ∀ k v, m.lookup k = some v → P k v

/-- The program puts pairs of one kind only. -/
inductive LuaProg.PutsOnly : LuaProg → Prop where
  | ret (truthy : Bool) : PutsOnly (.ret truthy)
  | raise : PutsOnly .raise
  | call {verb : KvVerb} {args : List LuaArg} {next : LuaAnswer → LuaProg} :
    (∀ k v, KvWrite.put k v ∈ verb.writes args → P k v) → (∀ a, (next a).PutsOnly) →
      PutsOnly (.call verb args next)
  | scan {lo hi : LuaArg} {callable : Bool} {fn : Bytes → Bytes → LuaProg} {limit : LuaArg}
    {next : LuaAnswer → LuaProg} :
    (∀ k v, (fn k v).PutsOnly) → (∀ a, (next a).PutsOnly) →
      PutsOnly (.scan lo hi callable fn limit next)

variable {P}

/-- An empty store holds pairs of any kind only. -/
theorem HoldsOnly.empty :
  HoldsOnly P OrderedMap.empty
  := by
  intro k v hlook
  cases hlook

/-- Writes that put pairs of the kind only. -/
theorem HoldsOnly.applyAll {m : Contents} (h : HoldsOnly P m) {ws : List KvWrite}
    (hws : ∀ k v, KvWrite.put k v ∈ ws → P k v) :
  HoldsOnly P (applyAll m ws)
  := by
  induction ws generalizing m with
  | nil => apply h
  | cons w ws ih =>
    apply ih
    · intro k v hlook
      cases w with
      | put k' v' =>
        rw [KvWrite.apply, OrderedMap.lookup_insert] at hlook
        split_ifs at hlook with hkey
        · rw [hkey, ← Option.some.inj hlook]
          apply hws k' v' List.mem_cons_self
        · apply h k v hlook
      | del k' =>
        rw [KvWrite.apply, OrderedMap.lookup_erase] at hlook
        split_ifs at hlook
        apply h k v hlook
    · intro k v hmem
      apply hws k v (List.mem_cons_of_mem _ hmem)

variable {api : KvStore S} {c : S → Contents} (hapi : api.IsMap c)

include hapi

/-- A scan whose callback keeps the contents of a kind. -/
theorem lScan_holdsOnly {fn : LuaRun S → Bytes → Bytes → LuaEnd × LuaRun S}
    (hfn : ∀ r k v, HoldsOnly P (c r.worker.store) → HoldsOnly P (c (fn r k v).2.worker.store))
    (lo hi : Bytes) (limit : ℤ) {r : LuaRun S} (h : HoldsOnly P (c r.worker.store)) :
  HoldsOnly P (c (lScan api fn lo hi limit r).2.worker.store)
  := by
  let start : LuaRun S :=
    { r with worker := { r.worker with store := (api.nowNs r.worker.store).2 } }
  have hstart : HoldsOnly P (c start.worker.store) := by
    change HoldsOnly P (c (api.nowNs r.worker.store).2)
    rwa [hapi.nowNs]
  obtain ⟨rows, hrows⟩ := api.range_calls (api.nowNs r.worker.store).2 lo hi (toCInt limit)
    (scanCb fn) (start, false)
  have hcb : ∀ st k v, HoldsOnly P (c st.1.worker.store) →
      HoldsOnly P (c (scanCb fn st k v).2.1.worker.store) := by
    rintro ⟨r, err⟩ k v hr
    have hnext := hfn r k v hr
    rw [scanCb]
    split
    case h_1 heq =>
      rw [heq] at hnext
      apply hnext
    case h_2 heq =>
      rw [heq] at hnext
      apply hnext
  have hstate := scan_state_of_step (P := fun st : LuaRun S × Bool =>
    HoldsOnly P (c st.1.worker.store)) hcb rows (start, false) hstart
  rw [← hrows] at hstate
  change HoldsOnly P (c (api.nowNs _).2)
  rw [hapi.nowNs]
  apply hstate

/-- A run of a program that puts pairs of a kind only. -/
theorem runLua_holdsOnly {prog : LuaProg} (hprog : prog.PutsOnly P) {r : LuaRun S}
    (h : HoldsOnly P (c r.worker.store)) :
  HoldsOnly P (c (runLua api prog r).2.worker.store)
  := by
  induction hprog generalizing r with
  | ret truthy => apply h
  | raise => apply h
  | call hputs hnext ih =>
    rw [runLua]
    split
    · apply ih _ h
    · rename_i hcall
      apply ih
      rw [kvCall_contents hapi hcall]
      apply h.applyAll hputs
  | scan hfn hnext ihfn ihnext =>
    rw [runLua]
    split
    · apply ihnext _ h
    · apply ihnext
      apply lScan_holdsOnly hapi _ _ _ _ h
      intro r k v hr
      apply ihfn k v hr

/-- A step of a program that puts pairs of a kind only leaves such a program. -/
theorem step_holdsOnly {prog prog' : LuaProg} (hprog : prog.PutsOnly P) {r r' : LuaRun S}
    (hstep : prog.step api r = some (prog', r')) (h : HoldsOnly P (c r.worker.store)) :
  prog'.PutsOnly P ∧ HoldsOnly P (c r'.worker.store)
  := by
  cases hprog with
  | ret truthy => cases hstep
  | raise => cases hstep
  | call hputs hnext =>
    rw [LuaProg.step] at hstep
    split at hstep
    · obtain ⟨rfl, rfl⟩ := Prod.mk.inj (Option.some.inj hstep)
      exact ⟨hnext _, h⟩
    · rename_i hcall
      obtain ⟨rfl, rfl⟩ := Prod.mk.inj (Option.some.inj hstep)
      use hnext _
      rw [kvCall_contents hapi hcall]
      apply h.applyAll hputs
  | scan hfn hnext =>
    rw [LuaProg.step] at hstep
    split at hstep
    · obtain ⟨rfl, rfl⟩ := Prod.mk.inj (Option.some.inj hstep)
      exact ⟨hnext _, h⟩
    · obtain ⟨rfl, rfl⟩ := Prod.mk.inj (Option.some.inj hstep)
      use hnext _
      apply lScan_holdsOnly hapi _ _ _ _ h
      intro r k v hr
      apply runLua_holdsOnly hapi (hfn k v) hr

/-- Threads whose programs put pairs of a kind only, on a store that holds such pairs only. -/
theorem run_luaStep_holdsOnly [DecidableEq ι] {x x' : LuaThreads S ι}
    (hprog : ∀ t, (x.thread t).prog.PutsOnly P) (h : HoldsOnly P (c x.store)) {ts : List ι}
    (hrun : run (luaStep api) x ts = some x') :
  HoldsOnly P (c x'.store)
  := by
  apply (run_luaStep_induct (I := fun s => HoldsOnly P (c s)) (J := fun _ y => y.prog.PutsOnly P)
    _ h hprog hrun).1
  intro _ y r prog' r' hy h hstep
  apply (step_holdsOnly hapi hy hstep h).symm

end Writes

end Keybench
