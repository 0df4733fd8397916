import Keybench.Engine.Reads
import Keybench.Workload.CartSeed
import Keybench.Workload.Programs

/-!
# Measurements

A measurement loads a store and then runs the workers on it.  The loaders take their verbs in any
order, and so do the workers.  With the same orders the loaders and then the workers find, count and
leave the same on the skiplist, on RocksDB and on TidesDB, at each moment (`measure_engines`).
-/

namespace Keybench

open Interleave

/-! ## Loaders -/

section Load

variable {G : Type} (rng : LuaRandom G)

/-- `load`: the batches that a thread hands over, or `none` when it raises an error before the
first. -/
def Workload.load (items thread threads : ℤ) (g : G) :
    Workload → Option (List (List (Bytes × Bytes)))
  | .mixed => mixedLoad items thread threads
  | .scan => scanLoad items thread threads
  | .batch _ => batchLoad items thread threads
  | .valsize valuebytes => valsizeLoad valuebytes items thread threads
  | .cart users => do
    let batches ← cartLoad rng users items thread threads g
    some (batches.map fun lines => lines.map fun k => (k, cartValue))

/-- What a thread of `load_worker_main` does. -/
def Workload.loader (W : Workload) (items thread threads : ℤ) (g : G) : LuaProg :=
  match W.load rng items thread threads g with
  | none => .raise
  | some batches => mputAll batches

end Load

/-- Handing batches over is portable. -/
theorem mputAll_portable (batches : List (List (Bytes × Bytes))) :
  (mputAll batches).Portable
  := by
  induction batches with
  | nil => exact .ret false
  | cons kvs rest ih =>
    apply LuaProg.Portable.call
    · intro a
      split_ifs
      · exact .raise
      · apply ih
    · rintro ⟨⟩

/-- What a loader does is portable. -/
theorem loader_portable {G : Type} (rng : LuaRandom G) (W : Workload) (items thread threads : ℤ)
    (g : G) :
  (W.loader rng items thread threads g).Portable
  := by
  rw [Workload.loader]
  split
  · exact .raise
  · apply mputAll_portable

/-! ## Both phases -/

/-- The program has returned. -/
def LuaProg.returned : LuaProg → Bool
  | .ret _ => true
  | _ => false

/-- Threads that begin on a store. -/
def LuaThreads.begin {S ι : Type} (s : S) (progs : ι → LuaProg) : LuaThreads S ι :=
  ⟨s, fun t => .start (progs t)⟩

/-- A load: the loaders have taken their verbs in the order `ts`, and need not have returned. -/
def loading {S : Type} (api : KvStore S) {T : ℕ} (loaders : Fin T → LuaProg) (ts : List (Fin T))
    (s : S) : Option (LuaThreads S (Fin T)) :=
  run (luaStep api) (.begin s loaders) ts

/-- A measurement: the loaders take their verbs in the order `ts`, and when all of them have
returned, the workers take theirs in the order `us`. -/
def measure {S : Type} (api : KvStore S) {T N : ℕ} (loaders : Fin T → LuaProg)
    (workers : Fin N → LuaProg) (ts : List (Fin T)) (us : List (Fin N)) (s : S) :
    Option (LuaThreads S (Fin N)) := do
  let x ← run (luaStep api) (.begin s loaders) ts
  if ∀ t, (x.thread t).prog.returned then
    run (luaStep api) (.begin x.store workers) us
  else none

/-- The load of a workload, with loaders that start from given generators. -/
def Workload.loading {G : Type} (rng : LuaRandom G) (W : Workload) (items : ℤ) {S : Type}
    (api : KvStore S) {T : ℕ} (g : Fin T → G) (ts : List (Fin T)) (s : S) :
    Option (LuaThreads S (Fin T)) :=
  Keybench.loading api (fun t => W.loader rng items t T (g t)) ts s

/-- The measurement of a workload, with loaders and workers that start from given generators. -/
def Workload.measure {G : Type} (rng : LuaRandom G) (hot : ℤ → G → ℤ × G) (W : Workload)
    (items : ℤ) {S : Type} (api : KvStore S) {T N : ℕ} (calls : Fin N → ℕ) (g : Fin T → G)
    (h : Fin N → G) (ts : List (Fin T)) (us : List (Fin N)) (s : S) :
    Option (LuaThreads S (Fin N)) :=
  Keybench.measure api (fun t => W.loader rng items t T (g t))
    (fun n => W.worker rng hot items (calls n) (h n)) ts us s

/-- Threads that begin with portable programs. -/
theorem LuaThreads.Agrees.begin {S₁ S₂ ι : Type} {c₁ : S₁ → Contents} {c₂ : S₂ → Contents}
    {s₁ : S₁} {s₂ : S₂} (hs : c₁ s₁ = c₂ s₂) {progs : ι → LuaProg}
    (hprogs : ∀ t, (progs t).Portable) :
  (LuaThreads.begin s₁ progs).Agrees c₁ c₂ (LuaThreads.begin s₂ progs)
  := by
  constructor
  case contents => apply hs
  case thread => exact fun t => ⟨rfl, hprogs t, ⟨rfl, rfl, rfl, rfl, fun _ => rfl⟩, rfl⟩

/-- Loads of portable programs on stores that are maps with the same contents. -/
theorem loading_agrees {S₁ S₂ : Type} {api₁ : KvStore S₁} {api₂ : KvStore S₂} {c₁ : S₁ → Contents}
    {c₂ : S₂ → Contents} (h₁ : api₁.IsMap c₁) (h₂ : api₂.IsMap c₂) {T : ℕ}
    {loaders : Fin T → LuaProg} (hloaders : ∀ t, (loaders t).Portable) (ts : List (Fin T)) {s₁ : S₁}
    {s₂ : S₂} (hs : c₁ s₁ = c₂ s₂) :
  Option.Rel (LuaThreads.Agrees c₁ c₂) (loading api₁ loaders ts s₁) (loading api₂ loaders ts s₂)
  := run_luaStep_agrees h₁ h₂ (.begin hs hloaders) ts

/-- Measurements of portable programs on stores that are maps with the same contents. -/
theorem measure_agrees {S₁ S₂ : Type} {api₁ : KvStore S₁} {api₂ : KvStore S₂} {c₁ : S₁ → Contents}
    {c₂ : S₂ → Contents} (h₁ : api₁.IsMap c₁) (h₂ : api₂.IsMap c₂) {T N : ℕ}
    {loaders : Fin T → LuaProg} (hloaders : ∀ t, (loaders t).Portable) {workers : Fin N → LuaProg}
    (hworkers : ∀ n, (workers n).Portable) (ts : List (Fin T)) (us : List (Fin N)) {s₁ : S₁}
    {s₂ : S₂} (hs : c₁ s₁ = c₂ s₂) :
  Option.Rel (LuaThreads.Agrees c₁ c₂) (measure api₁ loaders workers ts us s₁)
    (measure api₂ loaders workers ts us s₂)
  := by
  have hload := loading_agrees h₁ h₂ hloaders ts hs
  rw [loading, loading] at hload
  rw [measure, measure]
  generalize run (luaStep api₁) (.begin s₁ loaders) ts = x₁ at hload ⊢
  generalize run (luaStep api₂) (.begin s₂ loaders) ts = x₂ at hload ⊢
  cases hload with
  | none => exact .none
  | @some x₁ x₂ hx =>
    have hends : (∀ t, (x₁.thread t).prog.returned) ↔ ∀ t, (x₂.thread t).prog.returned := by
      simp only [(hx.thread _).prog]
    simp only [Option.bind_eq_bind, Option.bind_some, hends]
    split_ifs
    · exact run_luaStep_agrees h₁ h₂ (.begin hx.contents hworkers) us
    · exact .none

section Engines

variable {R C C₁ C₂ W₁ D₁ It₁ W₂ D₂ Cf Txn It₂ Ptr : Type} {rand : R → ℕ × R}
  (hrand : ∀ r, 0 < (rand r).1 ∧ (rand r).1 ≤ slMaxLevel)
  {E₁ : RocksdbEngine W₁ D₁} {db : D₁} {c₁ : W₁ → Contents} (h₁ : E₁.IsMap db c₁)
  {reads : RocksdbReads W₁ D₁ It₁} (hreads₁ : reads.IsMap db c₁)
  {E₂ : TidesdbEngine W₂ D₂ Cf Txn It₂ Ptr} {t : Tdb D₂ Cf} {c₂ : W₂ → Contents}
  {pending : W₂ → Txn → List KvWrite} (h₂ : E₂.IsMap t c₂ pending) (hreads₂ : E₂.ReadsMap t c₂)
  (clock : C → UInt64 × C) (clock₁ : C₁ → UInt64 × C₁) (clock₂ : C₂ → UInt64 × C₂)

/-- The load and the measurement of any workload on the skiplist, on RocksDB and on TidesDB, when
they hold the same contents before it and the threads take their verbs in the same order. -/
theorem measure_engines {G : Type} (rng : LuaRandom G) (hot : ℤ → G → ℤ × G) (W : Workload)
    (items : ℤ) {T N : ℕ} (calls : Fin N → ℕ) (g : Fin T → G) (h : Fin N → G) (ts : List (Fin T))
    (us : List (Fin N)) (m : Contents) {s : C × HeldSkiplist R} (hs : s.2.contents = m)
    {w : C₁ × W₁} (hw : c₁ w.2 = m) {r : C₂ × TdbRun W₂ Txn It₂ Ptr} (hr : c₂ r.2.world = m) :
  (Option.Rel (LuaThreads.Agrees (fun cs => cs.2.contents) fun cs => c₁ cs.2)
        (W.loading rng items (skiplistStore hrand clock) g ts s)
        (W.loading rng items (rocksdbStore h₁ hreads₁ clock₁) g ts w) ∧
      Option.Rel (LuaThreads.Agrees (fun cs => c₁ cs.2) fun cs => c₂ cs.2.world)
        (W.loading rng items (rocksdbStore h₁ hreads₁ clock₁) g ts w)
        (W.loading rng items (tidesdbStore h₂ hreads₂ clock₂) g ts r)) ∧
    Option.Rel (LuaThreads.Agrees (fun cs => cs.2.contents) fun cs => c₁ cs.2)
      (W.measure rng hot items (skiplistStore hrand clock) calls g h ts us s)
      (W.measure rng hot items (rocksdbStore h₁ hreads₁ clock₁) calls g h ts us w) ∧
    Option.Rel (LuaThreads.Agrees (fun cs => c₁ cs.2) fun cs => c₂ cs.2.world)
      (W.measure rng hot items (rocksdbStore h₁ hreads₁ clock₁) calls g h ts us w)
      (W.measure rng hot items (tidesdbStore h₂ hreads₂ clock₂) calls g h ts us r)
  := by
  have hloaders := fun t : Fin T => loader_portable rng W items t T (g t)
  have hworkers : ∀ n, (W.worker rng hot items (calls n) (h n)).Portable :=
    fun n => worker_portable W (calls n) (h n)
  have hsl := skiplistStore_isMap hrand clock
  have hrdb := rocksdbStore_isMap h₁ hreads₁ clock₁
  have htdb := tidesdbStore_isMap h₂ hreads₂ clock₂
  and_intros
  · apply loading_agrees hsl hrdb hloaders
    rw [hs, hw]
  · apply loading_agrees hrdb htdb hloaders
    rw [hw, hr]
  · apply measure_agrees hsl hrdb hloaders hworkers
    rw [hs, hw]
  · apply measure_agrees hrdb htdb hloaders hworkers
    rw [hw, hr]

end Engines

/-- What a system does that goes along with one that does something. -/
theorem exists_of_rel {α β : Type} {r : α → β → Prop} {x : Option α} {b : β}
    (h : Option.Rel r x (some b)) :
  ∃ a, x = some a ∧ r a b
  := by
  cases h with
  | some hab => exact ⟨_, rfl, hab⟩

/-- A measurement of cart by two loaders and two workers, with a clock that stands still: the second
loader and the second worker take the first turns. -/
theorem measure_engines_example :
  ∃ (y : LuaThreads (Unit × HeldSkiplist UInt64) (Fin 2))
      (z : LuaThreads (Unit × Contents) (Fin 2)),
    (Workload.cart 3).measure steadyRandom (fun _ g => (0, g)) 5
        (skiplistStore randLevel_height fun u : Unit => (0, u)) (fun _ => 2)
        (fun _ : Fin 2 => 0) (fun n : Fin 2 => n.val.toUInt32) [1, 0] [1, 0] ((), .new 1)
      = some y ∧
    (Workload.cart 3).measure steadyRandom (fun _ g => (0, g)) 5
        (rocksdbStore mapRocksdb_isMap rowsRocksdb_isMap fun u : Unit => (0, u)) (fun _ => 2)
        (fun _ : Fin 2 => 0) (fun n : Fin 2 => n.val.toUInt32) [1, 0] [1, 0]
        ((), OrderedMap.empty) = some z ∧
    LuaThreads.Agrees (fun cs => cs.2.contents) (fun cs => cs.2) y z ∧
    ∃ x, (Workload.cart 3).measure steadyRandom (fun _ g => (0, g)) 5
        (tidesdbStore rowsTidesdb_isMap rowsTidesdb_reads fun u : Unit => (0, u)) (fun _ => 2)
        (fun _ : Fin 2 => 0) (fun n : Fin 2 => n.val.toUInt32) [1, 0] [1, 0]
        ((), ⟨(OrderedMap.empty, [], []), []⟩) = some x ∧
      LuaThreads.Agrees (fun cs => cs.2) (fun cs => cs.2.world.1) z x
  := by
  obtain ⟨z, hz⟩ : ∃ z : LuaThreads (Unit × Contents) (Fin 2),
      (Workload.cart 3).measure steadyRandom (fun _ g => (0, g)) 5
        (rocksdbStore mapRocksdb_isMap rowsRocksdb_isMap fun u : Unit => (0, u)) (fun _ => 2)
        (fun _ : Fin 2 => 0) (fun n : Fin 2 => n.val.toUInt32) [1, 0] [1, 0]
        ((), OrderedMap.empty) = some z := ⟨_, rfl⟩
  obtain ⟨-, hsl, htdb⟩ := measure_engines randLevel_height mapRocksdb_isMap rowsRocksdb_isMap
    rowsTidesdb_isMap rowsTidesdb_reads (fun u : Unit => (0, u)) (fun u : Unit => (0, u))
    (fun u : Unit => (0, u)) steadyRandom (fun _ g => (0, g)) (.cart 3) 5 (fun _ => 2)
    (fun _ : Fin 2 => 0) (fun n : Fin 2 => n.val.toUInt32) [1, 0] [1, 0] OrderedMap.empty
    (s := ((), .new 1)) rfl (w := ((), OrderedMap.empty)) rfl
    (r := ((), ⟨(OrderedMap.empty, [], []), []⟩)) rfl
  rw [hz] at hsl htdb
  obtain ⟨y, hy, hyz⟩ := exists_of_rel hsl
  cases hx : (Workload.cart 3).measure steadyRandom (fun _ g => (0, g)) 5
      (tidesdbStore rowsTidesdb_isMap rowsTidesdb_reads fun u : Unit => (0, u)) (fun _ => 2)
      (fun _ : Fin 2 => 0) (fun n : Fin 2 => n.val.toUInt32) [1, 0] [1, 0]
      ((), ⟨(OrderedMap.empty, [], []), []⟩) with
  | none =>
    rw [hx] at htdb
    cases htdb
  | some x =>
    rw [hx] at htdb
    obtain ⟨hzx⟩ := htdb
    exact ⟨y, z, hy, hz, hyz, x, rfl, hzx⟩

end Keybench
