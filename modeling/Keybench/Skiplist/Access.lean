import Keybench.Lib.Access
import Keybench.Skiplist.History

/-!
# The skiplist one access at a time

The operations of `backends/skiplist` as programs that read and write the list's heap and its
record one access at a time, so that they can be interleaved.  Run without interruption they are
the operations of `Keybench.Skiplist.Ops` (`run_slBody`).  `sl_get` and `sl_range` write
nothing, and an operation changes the count, and the level, at most once.
-/

namespace Keybench

open Access

variable {R : Type}

/-! ## Accesses -/

/-- Read `a->next[i]`. -/
def readNext (a : Addr) (i : ℕ) : Prog (Skiplist R) (Option Addr) :=
  Prog.get fun s => nextAt s.mem a i

/-- Read `a->key`. -/
def readKey (a : Addr) : Prog (Skiplist R) Bytes :=
  Prog.get fun s => (s.mem a).map SlNode.key

/-- Read `a->val`. -/
def readVal (a : Addr) : Prog (Skiplist R) Bytes :=
  Prog.get fun s => (s.mem a).map SlNode.val

/-- Read `s->head`. -/
def readHead : Prog (Skiplist R) Addr := Prog.get fun s => some s.head

/-- Read `s->level`. -/
def readLevel : Prog (Skiplist R) ℕ := Prog.get fun s => some s.level

/-- Write `a->next[i] = t`. -/
def writeNext (a : Addr) (i : ℕ) (t : Option Addr) : Prog (Skiplist R) Unit :=
  Prog.set fun s => (setNext s.mem a i t).map fun mem => { s with mem }

/-- Write `a->val`, in the place of the old value. -/
def writeVal (a : Addr) (v : Bytes) : Prog (Skiplist R) Unit :=
  Prog.set fun s => (s.mem a).map fun c =>
    { s with mem := Function.update s.mem a (some { c with val := v }) }

/-- `KV_RELAXED_SET(s->level, level)`. -/
def writeLevel (level : ℕ) : Prog (Skiplist R) Unit :=
  Prog.set fun s => some { s with level }

/-- `KV_RELAXED_ADD(s->count, n)`. -/
def addCount (n : ℤ) : Prog (Skiplist R) Unit :=
  Prog.set fun s => some { s with count := s.count + n }

/-- A node of its own, with a key and a value. -/
def allocNode (level : ℕ) (k v : Bytes) : Prog (Skiplist R) Addr := do
  let n ← Prog.get fun s => some s.brk
  Prog.set fun s => some { s with
    mem := Function.update s.mem n (some (nodeNew level k v))
    brk := n + 1 }
  pure n

/-- `free` of a node with its key and its value. -/
def freeNode (a : Addr) : Prog (Skiplist R) Unit :=
  Prog.set fun s => (s.mem a).map fun _ => { s with mem := Function.update s.mem a none }

/-! ## Searching -/

/-- The inner loop of a search. -/
def slWalkProg (k : Bytes) (i : ℕ) : ℕ → Addr → Prog (Skiplist R) Addr
  | 0, _ => Prog.lift none
  | fuel + 1, x => do
    match ← readNext x i with
    | none => pure x
    | some y =>
      let key ← readKey y
      if kvKeycmp key k < 0 then slWalkProg k i fuel y else pure x

/-- The search of `sl_put` and `sl_del`. -/
def slDescendProg (k : Bytes) (fuel : ℕ) :
    ℕ → Addr → Update → Prog (Skiplist R) (Addr × Update)
  | 0, x, update => pure (x, update)
  | n + 1, x, update => do
    let x ← slWalkProg k n fuel x
    let update ← Prog.lift (setUpdate update n x)
    slDescendProg k fuel n x update

/-- The search of `sl_get` and `sl_range`. -/
def slSeekProg (k : Bytes) (fuel : ℕ) : ℕ → Addr → Prog (Skiplist R) Addr
  | 0, x => pure x
  | n + 1, x => do
    let x ← slWalkProg k n fuel x
    slSeekProg k fuel n x

/-- `x = x->next[0]`, kept when it is a node with key `k`. -/
def slMatchProg (x : Addr) (k : Bytes) : Prog (Skiplist R) (Option Addr) := do
  match ← readNext x 0 with
  | none => pure none
  | some y =>
    let key ← readKey y
    if kvKeycmp key k = 0 then pure (some y) else pure none

/-! ## The operations -/

section Operations

variable (rand : R → ℕ × R) (fuel : ℕ)

/-- `rand_level`. -/
def randLevelProg : Prog (Skiplist R) ℕ := do
  let lvl ← Prog.get fun s => some (rand s.rng).1
  Prog.set fun s => some { s with rng := (rand s.rng).2 }
  pure lvl

/-- The linking loop of `sl_put` for the levels below `lvl`. -/
def slLinkProg (update : Update) (n : Addr) : ℕ → Prog (Skiplist R) Unit
  | 0 => pure ()
  | i + 1 => do
    slLinkProg update n i
    let p ← Prog.lift (update i)
    let t ← readNext p i
    writeNext n i t
    writeNext p i (some n)

/-- `sl_put`, between taking the lock and giving it back. -/
def slPutProg (k v : Bytes) : Prog (Skiplist R) ℤ := do
  let (x, update) ← slDescendProg k fuel (← readLevel) (← readHead) (fun _ => none)
  match ← slMatchProg x k with
  | some y =>
    writeVal y v
    pure 0
  | none =>
    let lvl ← randLevelProg rand
    let level ← readLevel
    let update ← Prog.lift (slGrow (← readHead) level lvl update)
    if lvl > level then writeLevel lvl
    let n ← allocNode lvl k v
    slLinkProg update n lvl
    addCount 1
    pure 0

/-- `sl_get`: the return code and the copied value. -/
def slGetProg (k : Bytes) : Prog (Skiplist R) (ℤ × Option Bytes) := do
  let x ← slSeekProg k fuel (← readLevel) (← readHead)
  match ← slMatchProg x k with
  | some y =>
    let v ← readVal y
    pure (1, some v)
  | none => pure (0, none)

/-- The unlinking loop of `sl_del` for the levels below a bound. -/
def slUnlinkProg (update : Update) (x : Addr) : ℕ → Prog (Skiplist R) Unit
  | 0 => pure ()
  | i + 1 => do
    slUnlinkProg update x i
    let p ← Prog.lift (update i)
    let y ← readNext p i
    if y = some x then
      let t ← readNext x i
      writeNext p i t

/-- `while (lvl > 1 && head->next[lvl - 1] == NULL) lvl--`. -/
def slShrinkProg (head : Addr) : ℕ → Prog (Skiplist R) ℕ
  | lvl + 2 => do
    match ← readNext head (lvl + 1) with
    | none => slShrinkProg head (lvl + 1)
    | some _ => pure (lvl + 2)
  | lvl => pure lvl

/-- `sl_del`. -/
def slDelProg (k : Bytes) : Prog (Skiplist R) ℤ := do
  let (x, update) ← slDescendProg k fuel (← readLevel) (← readHead) (fun _ => none)
  match ← slMatchProg x k with
  | none => pure 0
  | some y =>
    slUnlinkProg update y (← readLevel)
    let lvl ← slShrinkProg (← readHead) (← readLevel)
    writeLevel lvl
    freeNode y
    addCount (-1)
    pure 1

/-- The row loop of `sl_range` from the cell `x`, after `n` rows. -/
def slRangeLoopProg {σ : Type} (hi : Bytes) (limit : ℤ) (cb : RowCallback σ Bytes Bytes) :
    ℕ → Option Addr → ℤ → σ → Prog (Skiplist R) (ℤ × σ)
  | 0, _, _, _ => Prog.lift none
  | _ + 1, none, n, st => pure (n, st)
  | fuel + 1, some x, n, st =>
    if limit ≤ 0 ∨ n < limit then do
      let key ← readKey x
      if 0 ≤ kvKeycmp key hi then pure (n, st)
      else do
        let val ← readVal x
        let (stop, st) := cb st key val
        if stop ≠ 0 then pure (n, st)
        else do
          let y ← readNext x 0
          slRangeLoopProg hi limit cb fuel y (n + 1) st
    else pure (n, st)

/-- `sl_range`. -/
def slRangeProg {σ : Type} (lo hi : Bytes) (limit : ℤ) (cb : RowCallback σ Bytes Bytes) (st : σ) :
    Prog (Skiplist R) (ℤ × σ) := do
  let x ← slSeekProg lo fuel (← readLevel) (← readHead)
  let y ← readNext x 0
  slRangeLoopProg hi limit cb fuel y 0 st

/-- A call, between taking the lock and giving it back. -/
def slBody : SlCall → Prog (Skiplist R) SlAnswer
  | .put k v => do
    let r ← slPutProg rand fuel k v
    pure (.rc r)
  | .get k => do
    let (r, v) ← slGetProg fuel k
    pure (.value r v)
  | .del k => do
    let r ← slDelProg fuel k
    pure (.rc r)
  | .range lo hi limit cb => do
    let (n, called) ← slRangeProg fuel lo hi limit (remember cb) []
    pure (.rows n called)

end Operations

/-! ## Without interruption -/

@[simp]
theorem run_readNext (a : Addr) (i : ℕ) (s : Skiplist R) :
  (readNext a i).run s = (nextAt s.mem a i).map fun t => (t, s)
  := Prog.run_get ..

@[simp]
theorem run_readKey (a : Addr) (s : Skiplist R) :
  (readKey a).run s = (s.mem a).map fun c => (c.key, s)
  := by
  rw [readKey, Prog.run_get, Option.map_map]
  rfl

@[simp]
theorem run_readVal (a : Addr) (s : Skiplist R) :
  (readVal a).run s = (s.mem a).map fun c => (c.val, s)
  := by
  rw [readVal, Prog.run_get, Option.map_map]
  rfl

@[simp]
theorem run_readHead (s : Skiplist R) :
  readHead.run s = some (s.head, s)
  := Prog.run_get ..

@[simp]
theorem run_readLevel (s : Skiplist R) :
  readLevel.run s = some (s.level, s)
  := Prog.run_get ..

theorem run_slWalkProg (k : Bytes) (i fuel : ℕ) (x : Addr) (s : Skiplist R) :
  (slWalkProg k i fuel x).run s = (slWalk s.mem k i fuel x).map fun y => (y, s)
  := by
  induction fuel generalizing x with
  | zero => simp [slWalkProg, slWalk]
  | succ fuel ih =>
    rw [slWalkProg, slWalk, Prog.run_bind, run_readNext]
    cases nextAt s.mem x i with
    | none => rfl
    | some t =>
      cases t with
      | none => rfl
      | some y =>
        simp only [Option.map_some, Option.bind_some, Prog.run_bind, run_readKey,
          Option.bind_eq_bind]
        cases s.mem y with
        | none => rfl
        | some c =>
          simp only [Option.map_some, Option.bind_some]
          split_ifs
          · apply ih
          · rfl

theorem run_slDescendProg (k : Bytes) (fuel n : ℕ) (x : Addr) (update : Update) (s : Skiplist R) :
  (slDescendProg k fuel n x update).run s
    = (slDescend s.mem k fuel n x update).map fun y => (y, s)
  := by
  induction n generalizing x update with
  | zero => rfl
  | succ n ih =>
    rw [slDescendProg, slDescend]
    simp only [Prog.run_bind, run_slWalkProg, Prog.run_lift, ih, Option.bind_map, Option.map_bind,
      Function.comp_def, Option.bind_eq_bind]

theorem run_slSeekProg (k : Bytes) (fuel n : ℕ) (x : Addr) (s : Skiplist R) :
  (slSeekProg k fuel n x).run s = (slSeek s.mem k fuel n x).map fun y => (y, s)
  := by
  induction n generalizing x with
  | zero => rfl
  | succ n ih =>
    rw [slSeekProg, slSeek]
    simp only [Prog.run_bind, run_slWalkProg, ih, Option.bind_map, Option.map_bind,
      Function.comp_def, Option.bind_eq_bind]

theorem run_slMatchProg (x : Addr) (k : Bytes) (s : Skiplist R) :
  (slMatchProg x k).run s = (slMatch s.mem x k).map fun y => (y, s)
  := by
  rw [slMatchProg, slMatch, Prog.run_bind, run_readNext]
  cases nextAt s.mem x 0 with
  | none => rfl
  | some t =>
    cases t with
    | none => rfl
    | some y =>
      simp only [Option.map_some, Option.bind_some, Prog.run_bind, run_readKey,
        Option.bind_eq_bind]
      cases s.mem y with
      | none => rfl
      | some c =>
        simp only [Option.map_some, Option.bind_some]
        split_ifs <;> rfl

theorem run_slLinkProg (update : Update) (n : Addr) (lvl : ℕ) (s : Skiplist R) :
  (slLinkProg update n lvl).run s
    = (slLink update n s.mem lvl).map fun mem => ((), { s with mem })
  := by
  induction lvl with
  | zero => rfl
  | succ i ih =>
    rw [slLinkProg, slLink]
    simp only [Prog.run_bind, ih, Prog.run_lift, run_readNext, writeNext, Prog.run_set,
      Option.bind_map, Option.map_bind, Option.map_map, Function.comp_def, Option.bind_eq_bind]

theorem run_slUnlinkProg (update : Update) (x : Addr) (lvl : ℕ) (s : Skiplist R) :
  (slUnlinkProg update x lvl).run s
    = (slUnlink update x s.mem lvl).map fun mem => ((), { s with mem })
  := by
  induction lvl with
  | zero => rfl
  | succ i ih =>
    rw [slUnlinkProg, slUnlink]
    simp only [Prog.run_bind, ih, Prog.run_lift, run_readNext, Option.bind_map, Option.map_bind,
      Function.comp_def, Option.bind_eq_bind]
    congr 1
    funext mem
    congr 1
    funext p
    congr 1
    funext y
    split_ifs with h
    · simp [writeNext, Option.map_bind, Option.map_map, Function.comp_def, Option.bind_map]
    · rfl

/-- A write to a pointer array leaves the live cells. -/
theorem isSome_setNext {mem mem' : Mem} {a : Addr} {i : ℕ} {t : Option Addr}
    (h : setNext mem a i t = some mem') (b : Addr) :
  (mem' b).isSome = (mem b).isSome
  := by
  obtain ⟨c, hc, hset⟩ := Option.bind_eq_some_iff.mp h
  split_ifs at hset
  obtain rfl := Option.some.inj hset
  rcases eq_or_ne b a with rfl | hne
  · rw [Function.update_self, hc]
    rfl
  · rw [Function.update_of_ne hne]

/-- Unlinking leaves the live cells. -/
theorem isSome_slUnlink {update : Update} {x : Addr} {mem mem' : Mem} {lvl : ℕ}
    (h : slUnlink update x mem lvl = some mem') (b : Addr) :
  (mem' b).isSome = (mem b).isSome
  := by
  induction lvl generalizing mem' with
  | zero =>
    obtain rfl := Option.some.inj h
    rfl
  | succ i ih =>
    simp only [slUnlink, Option.bind_eq_bind, Option.bind_eq_some_iff] at h
    obtain ⟨mem₁, hmem₁, p, -, z, -, h⟩ := h
    rw [← ih hmem₁]
    split_ifs at h
    · obtain ⟨t, -, hset⟩ := Option.bind_eq_some_iff.mp h
      apply isSome_setNext hset
    · obtain rfl := Option.some.inj h
      rfl

/-- A search ends at a live cell. -/
theorem isSome_of_slMatch {mem : Mem} {x y : Addr} {k : Bytes} (h : slMatch mem x k = some (some y)) :
  (mem y).isSome
  := by
  simp only [slMatch, Option.bind_eq_bind, Option.bind_eq_some_iff] at h
  obtain ⟨t, -, h⟩ := h
  cases t with
  | none => cases h
  | some z =>
    obtain ⟨c, hc, h⟩ := Option.bind_eq_some_iff.mp h
    split_ifs at h
    · obtain rfl := Option.some.inj (Option.some.inj h)
      rw [hc]
      rfl
    · cases Option.some.inj h

theorem run_slShrinkProg (head : Addr) (lvl : ℕ) (s : Skiplist R) :
  (slShrinkProg head lvl).run s = (slShrink s.mem head lvl).map fun y => (y, s)
  := by
  induction lvl using Nat.strongRecOn with
  | ind lvl ih =>
    match lvl with
    | 0 => rfl
    | 1 => rfl
    | lvl + 2 =>
      rw [slShrinkProg, slShrink, Prog.run_bind, run_readNext]
      cases nextAt s.mem head (lvl + 1) with
      | none => rfl
      | some t =>
        cases t with
        | none => apply ih (lvl + 1) (by omega)
        | some y => rfl

section Operations

variable (rand : R → ℕ × R) (fuel : ℕ)

theorem run_slPutProg (k v : Bytes) (s : Skiplist R) :
  (slPutProg rand fuel k v).run s = slPut rand fuel s k v
  := by
  rw [slPutProg, slPut]
  simp only [Prog.run_bind, run_readLevel, run_readHead, Option.bind_some, run_slDescendProg,
    Option.bind_map, Function.comp_def, run_slMatchProg, Option.bind_eq_bind]
  congr 1
  funext x
  congr 1
  funext y
  cases y with
  | some y =>
    simp only [writeVal, Prog.run_bind, Prog.run_set, Prog.run_pure]
    cases s.mem y <;> rfl
  | none =>
    simp only [Prog.run_bind, randLevelProg, Prog.run_get, Prog.run_set, Option.map_some,
      Option.bind_some, Prog.run_pure, run_readLevel, run_readHead, Prog.run_lift, Option.bind_map,
      Function.comp_def]
    congr 1
    funext update
    split_ifs
    · simp only [writeLevel, allocNode, addCount, Prog.run_bind, Prog.run_set, Prog.run_get,
        Option.map_some, Option.bind_some, Prog.run_pure, run_slLinkProg, Option.bind_map,
        Function.comp_def]
    · simp only [allocNode, addCount, Prog.run_bind, Prog.run_set, Prog.run_get,
        Option.map_some, Option.bind_some, Prog.run_pure, run_slLinkProg, Option.bind_map,
        Function.comp_def]

theorem run_slGetProg (k : Bytes) (s : Skiplist R) :
  (slGetProg fuel k).run s = (slGet fuel s k).map fun x => (x, s)
  := by
  rw [slGetProg, slGet]
  simp only [Prog.run_bind, run_readLevel, run_readHead, Option.bind_some, run_slSeekProg,
    Option.bind_map, Option.map_bind, Function.comp_def, run_slMatchProg, Option.bind_eq_bind]
  congr 1
  funext x
  congr 1
  funext y
  cases y with
  | none => rfl
  | some y =>
    simp only [Prog.run_bind, run_readVal]
    cases s.mem y <;> rfl

theorem run_slDelProg (k : Bytes) (s : Skiplist R) :
  (slDelProg fuel k).run s = slDel fuel s k
  := by
  rw [slDelProg, slDel]
  simp only [Prog.run_bind, run_readLevel, run_readHead, Option.bind_some, run_slDescendProg,
    Option.bind_map, Function.comp_def, run_slMatchProg, Option.bind_eq_bind]
  congr 1
  funext x
  apply Option.bind_congr
  intro y hy
  cases y with
  | none => rfl
  | some y =>
    simp only [Prog.run_bind, run_readLevel, run_readHead, Option.bind_some, run_slUnlinkProg,
      Option.bind_map, Function.comp_def, run_slShrinkProg, writeLevel, freeNode, addCount,
      Prog.run_set, Prog.run_pure, Option.map_some]
    apply Option.bind_congr
    intro mem hmem
    congr 1
    funext level
    have hlive : (mem y).isSome := (isSome_slUnlink hmem y).trans (isSome_of_slMatch hy)
    obtain ⟨c, hc⟩ := Option.isSome_iff_exists.mp hlive
    simp only [hc, Option.bind_some]
    rfl

theorem run_slRangeLoopProg {σ : Type} (hi : Bytes) (limit : ℤ) (cb : RowCallback σ Bytes Bytes)
    (fuel : ℕ) (x : Option Addr) (n : ℤ) (st : σ) (s : Skiplist R) :
  (slRangeLoopProg hi limit cb fuel x n st).run s
    = (slRangeLoop s.mem hi limit cb fuel x n st).map fun y => (y, s)
  := by
  induction fuel generalizing x n st with
  | zero => simp [slRangeLoopProg, slRangeLoop]
  | succ fuel ih =>
    cases x with
    | none => rfl
    | some x =>
      rw [slRangeLoopProg, slRangeLoop]
      split_ifs
      · simp only [Prog.run_bind, run_readKey, Option.bind_eq_bind]
        cases hc : s.mem x with
        | none => rfl
        | some c =>
          simp only [Option.map_some, Option.bind_some]
          split_ifs with hhi hstop
          · rfl
          · simp [hc, hstop]
          · simp only [Prog.run_bind, run_readVal, hc, Option.map_some, Option.bind_some,
              if_neg hstop, run_readNext, Option.bind_map, Option.map_bind, Function.comp_def, ih]
      · rfl

theorem run_slRangeProg {σ : Type} (lo hi : Bytes) (limit : ℤ) (cb : RowCallback σ Bytes Bytes)
    (st : σ) (s : Skiplist R) :
  (slRangeProg fuel lo hi limit cb st).run s
    = (slRange fuel s lo hi limit cb st).map fun x => (x, s)
  := by
  rw [slRangeProg, slRange]
  simp only [Prog.run_bind, run_readLevel, run_readHead, Option.bind_some, run_slSeekProg,
    run_readNext, Option.bind_map, Option.map_bind, Function.comp_def, run_slRangeLoopProg,
    Option.bind_eq_bind]

/-- Without interruption a call is the call of `slStep`. -/
theorem run_slBody (call : SlCall) (s : Skiplist R) :
  (slBody rand fuel call).run s = slStep rand fuel s call
  := by
  cases call with
  | put k v =>
    rw [slBody, slStep, Prog.run_bind, run_slPutProg]
    rfl
  | get k =>
    rw [slBody, slStep, Prog.run_bind, run_slGetProg, Option.bind_map]
    rfl
  | del k =>
    rw [slBody, slStep, Prog.run_bind, run_slDelProg]
    rfl
  | range lo hi limit cb =>
    rw [slBody, slStep, Prog.run_bind, run_slRangeProg, Option.bind_map]
    rfl

end Operations

/-! ## What the operations write -/

theorem slWalkProg_readOnly (k : Bytes) (i fuel : ℕ) (x : Addr) :
  (slWalkProg k i fuel x : Prog (Skiplist R) Addr).ReadOnly
  := by
  induction fuel generalizing x with
  | zero => apply Prog.ReadOnly.lift
  | succ fuel ih =>
    rw [slWalkProg]
    apply Prog.ReadOnly.bind (Prog.ReadOnly.get _)
    intro t
    cases t with
    | none => apply Prog.ReadOnly.pure
    | some y =>
      apply Prog.ReadOnly.bind (Prog.ReadOnly.get _)
      intro key
      split_ifs
      · apply ih
      · apply Prog.ReadOnly.pure

theorem slDescendProg_readOnly (k : Bytes) (fuel n : ℕ) (x : Addr) (update : Update) :
  (slDescendProg k fuel n x update : Prog (Skiplist R) (Addr × Update)).ReadOnly
  := by
  induction n generalizing x update with
  | zero => apply Prog.ReadOnly.pure
  | succ n ih =>
    rw [slDescendProg]
    apply Prog.ReadOnly.bind (slWalkProg_readOnly ..)
    intro y
    apply Prog.ReadOnly.bind (Prog.ReadOnly.lift _)
    intro update'
    apply ih

theorem slSeekProg_readOnly (k : Bytes) (fuel n : ℕ) (x : Addr) :
  (slSeekProg k fuel n x : Prog (Skiplist R) Addr).ReadOnly
  := by
  induction n generalizing x with
  | zero => apply Prog.ReadOnly.pure
  | succ n ih =>
    rw [slSeekProg]
    apply Prog.ReadOnly.bind (slWalkProg_readOnly ..)
    intro y
    apply ih

theorem slMatchProg_readOnly (x : Addr) (k : Bytes) :
  (slMatchProg x k : Prog (Skiplist R) (Option Addr)).ReadOnly
  := by
  rw [slMatchProg]
  apply Prog.ReadOnly.bind (Prog.ReadOnly.get _)
  intro t
  cases t with
  | none => apply Prog.ReadOnly.pure
  | some y =>
    apply Prog.ReadOnly.bind (Prog.ReadOnly.get _)
    intro key
    split_ifs <;> apply Prog.ReadOnly.pure

theorem slShrinkProg_readOnly (head : Addr) (lvl : ℕ) :
  (slShrinkProg head lvl : Prog (Skiplist R) ℕ).ReadOnly
  := by
  induction lvl using Nat.strongRecOn with
  | ind lvl ih =>
    match lvl with
    | 0 => apply Prog.ReadOnly.pure
    | 1 => apply Prog.ReadOnly.pure
    | lvl + 2 =>
      rw [slShrinkProg]
      apply Prog.ReadOnly.bind (Prog.ReadOnly.get _)
      intro t
      cases t with
      | none => apply ih (lvl + 1) (Nat.lt_succ_self _)
      | some y => apply Prog.ReadOnly.pure

/-- A search, as the operations begin with, and what they do with the place found. -/
theorem readOnly_search {α β : Type} {search : ℕ → Addr → Prog (Skiplist R) α}
    {rest : α → Prog (Skiplist R) β} (hsearch : ∀ n x, (search n x).ReadOnly)
    (hrest : ∀ a, (rest a).ReadOnly) :
  (do
    let a ← search (← readLevel) (← readHead)
    rest a).ReadOnly
  := by
  apply Prog.ReadOnly.bind (Prog.ReadOnly.get _)
  intro n
  apply Prog.ReadOnly.bind (Prog.ReadOnly.get _)
  intro x
  apply Prog.ReadOnly.bind (hsearch n x) hrest

/-- `sl_get` writes nothing. -/
theorem slGetProg_readOnly (fuel : ℕ) (k : Bytes) :
  (slGetProg fuel k : Prog (Skiplist R) (ℤ × Option Bytes)).ReadOnly
  := by
  apply readOnly_search (slSeekProg_readOnly k fuel)
  intro x
  apply Prog.ReadOnly.bind (slMatchProg_readOnly x k)
  intro y
  cases y with
  | none => apply Prog.ReadOnly.pure
  | some y =>
    apply Prog.ReadOnly.bind (Prog.ReadOnly.get _)
    intro v
    apply Prog.ReadOnly.pure

theorem slRangeLoopProg_readOnly {σ : Type} (hi : Bytes) (limit : ℤ)
    (cb : RowCallback σ Bytes Bytes) (fuel : ℕ) (x : Option Addr) (n : ℤ) (st : σ) :
  (slRangeLoopProg hi limit cb fuel x n st : Prog (Skiplist R) (ℤ × σ)).ReadOnly
  := by
  induction fuel generalizing x n st with
  | zero => apply Prog.ReadOnly.lift
  | succ fuel ih =>
    cases x with
    | none => apply Prog.ReadOnly.pure
    | some x =>
      rw [slRangeLoopProg]
      split_ifs
      · apply Prog.ReadOnly.bind (Prog.ReadOnly.get _)
        intro key
        split_ifs
        · apply Prog.ReadOnly.pure
        · apply Prog.ReadOnly.bind (Prog.ReadOnly.get _)
          intro val
          dsimp only
          split_ifs
          · apply Prog.ReadOnly.pure
          · apply Prog.ReadOnly.bind (Prog.ReadOnly.get _)
            intro y
            apply ih
      · apply Prog.ReadOnly.pure

/-- `sl_range` writes nothing. -/
theorem slRangeProg_readOnly {σ : Type} (fuel : ℕ) (lo hi : Bytes) (limit : ℤ)
    (cb : RowCallback σ Bytes Bytes) (st : σ) :
  (slRangeProg fuel lo hi limit cb st : Prog (Skiplist R) (ℤ × σ)).ReadOnly
  := by
  apply readOnly_search (slSeekProg_readOnly lo fuel)
  intro x
  apply Prog.ReadOnly.bind (Prog.ReadOnly.get _)
  intro y
  apply slRangeLoopProg_readOnly

section Observations

variable {O : Type} {o : Skiplist R → O}

/-- The linking loop keeps what does not depend on the heap. -/
theorem slLinkProg_keeps (ho : ∀ s mem, o { s with mem } = o s) (update : Update) (n : Addr)
    (lvl : ℕ) :
  (slLinkProg update n lvl).Keeps o
  := by
  have hwrite : ∀ a i t, (writeNext a i t).Keeps o := by
    intro a i t
    apply Prog.Keeps.set
    intro s s' h
    obtain ⟨mem, -, rfl⟩ := Option.map_eq_some_iff.mp h
    apply ho
  induction lvl with
  | zero => apply Prog.Keeps.pure
  | succ i ih =>
    rw [slLinkProg]
    apply Prog.Keeps.bind ih
    intro _
    apply Prog.Keeps.bind (Prog.Keeps.lift _)
    intro p
    apply Prog.Keeps.bind (Prog.Keeps.get _)
    intro t
    apply Prog.Keeps.bind (hwrite n i t)
    intro _
    apply hwrite

/-- The unlinking loop keeps what does not depend on the heap. -/
theorem slUnlinkProg_keeps (ho : ∀ s mem, o { s with mem } = o s) (update : Update) (x : Addr)
    (lvl : ℕ) :
  (slUnlinkProg update x lvl).Keeps o
  := by
  induction lvl with
  | zero => apply Prog.Keeps.pure
  | succ i ih =>
    rw [slUnlinkProg]
    apply Prog.Keeps.bind ih
    intro _
    apply Prog.Keeps.bind (Prog.Keeps.lift _)
    intro p
    apply Prog.Keeps.bind (Prog.Keeps.get _)
    intro y
    split_ifs
    · apply Prog.Keeps.bind (Prog.Keeps.get _)
      intro t
      apply Prog.Keeps.set
      intro s s' h
      obtain ⟨mem, -, rfl⟩ := Option.map_eq_some_iff.mp h
      apply ho
    · apply Prog.Keeps.pure

/-- A search, and what is done with the place found. -/
theorem once_search {α β : Type} {search : ℕ → Addr → Prog (Skiplist R) α}
    {rest : α → Prog (Skiplist R) β} (hsearch : ∀ n x, (search n x).ReadOnly)
    (hrest : ∀ a, (rest a).Once o) :
  (do
    let a ← search (← readLevel) (← readHead)
    rest a).Once o
  := by
  apply Prog.Once.bind_right (Prog.Keeps.get _)
  intro n
  apply Prog.Once.bind_right (Prog.Keeps.get _)
  intro x
  apply Prog.Once.bind_right (hsearch n x).keeps hrest

/-- `sl_put` changes the level before it links the node and the count after, each at most
once. -/
theorem slPutProg_once (rand : R → ℕ × R) (fuel : ℕ) (k v : Bytes)
    (ho : ∀ s mem brk rng, o { s with mem, brk, rng } = o s)
    (hor : (∀ s level, o { s with level } = o s) ∨ ∀ s count, o { s with count } = o s) :
  (slPutProg rand fuel k v).Once o
  := by
  have hmem : ∀ s mem, o { s with mem } = o s := fun s mem => ho s mem s.brk s.rng
  apply once_search (fun n x => slDescendProg_readOnly k fuel n x _)
  intro x
  apply Prog.Once.bind_right (slMatchProg_readOnly x.1 k).keeps
  intro y
  cases y with
  | some y =>
    apply Prog.Once.bind_left (Prog.Once.set _)
    intro _
    apply Prog.Keeps.pure
  | none =>
    apply Prog.Once.bind_right
    · apply Prog.Keeps.bind (Prog.Keeps.get _)
      intro lvl
      apply Prog.Keeps.bind (Prog.Keeps.set _)
      · intro _
        apply Prog.Keeps.pure
      · intro s s' h
        obtain rfl := Option.some.inj h
        apply ho s s.mem s.brk
    intro lvl
    apply Prog.Once.bind_right (Prog.Keeps.get _)
    intro level
    apply Prog.Once.bind_right (Prog.Keeps.get _)
    intro head
    apply Prog.Once.bind_right (Prog.Keeps.lift _)
    intro update
    have hlink : ∀ n, (slLinkProg update n lvl).Keeps o := fun n => slLinkProg_keeps hmem update n lvl
    have halloc : (allocNode lvl k v).Keeps o := by
      apply Prog.Keeps.bind (Prog.Keeps.get _)
      intro n
      apply Prog.Keeps.bind (Prog.Keeps.set _)
      · intro _
        apply Prog.Keeps.pure
      · intro s s' h
        obtain rfl := Option.some.inj h
        apply ho s _ _ s.rng
    have honce : ∀ q : Unit → Prog (Skiplist R) ℤ, (∀ u, (q u).Once o) →
        (do
          let n ← allocNode lvl k v
          slLinkProg update n lvl
          q ()).Once o := by
      intro q hq
      apply Prog.Once.bind_right halloc
      intro n
      apply Prog.Once.bind_right (hlink n)
      intro u
      apply hq
    have hcount : ∀ u : Unit, (do
        addCount 1
        pure 0 : Prog (Skiplist R) ℤ).Once o := by
      intro _
      apply Prog.Once.bind_left (Prog.Once.set _)
      intro _
      apply Prog.Keeps.pure
    dsimp only
    split_ifs
    · rcases hor with hlevel | hcnt
      · apply Prog.Once.bind_right
        · apply Prog.Keeps.set
          intro s s' h
          obtain rfl := Option.some.inj h
          apply hlevel
        · intro _
          apply honce _ hcount
      · apply Prog.Once.bind_left (Prog.Once.set _)
        intro _
        apply Prog.Keeps.bind halloc
        intro n
        apply Prog.Keeps.bind (hlink n)
        intro _
        apply Prog.Keeps.bind (Prog.Keeps.set _)
        · intro _
          apply Prog.Keeps.pure
        · intro s s' h
          obtain rfl := Option.some.inj h
          apply hcnt
    · apply honce _ hcount

/-- `sl_del` sets the level before it frees the node and the count after, each at most once. -/
theorem slDelProg_once (fuel : ℕ) (k : Bytes)
    (ho : ∀ s mem, o { s with mem } = o s)
    (hor : (∀ s level, o { s with level } = o s) ∨ ∀ s count, o { s with count } = o s) :
  (slDelProg fuel k).Once o
  := by
  apply once_search (fun n x => slDescendProg_readOnly k fuel n x _)
  intro x
  apply Prog.Once.bind_right (slMatchProg_readOnly x.1 k).keeps
  intro y
  cases y with
  | none => trivial
  | some y =>
    apply Prog.Once.bind_right (Prog.Keeps.get _)
    intro level
    apply Prog.Once.bind_right (slUnlinkProg_keeps ho x.2 y level)
    intro _
    apply Prog.Once.bind_right (Prog.Keeps.get _)
    intro head
    apply Prog.Once.bind_right (Prog.Keeps.get _)
    intro level'
    apply Prog.Once.bind_right (slShrinkProg_readOnly head level').keeps
    intro lvl
    have hfree : (freeNode y).Keeps o := by
      apply Prog.Keeps.set
      intro s s' h
      obtain ⟨c, -, rfl⟩ := Option.map_eq_some_iff.mp h
      apply ho
    rcases hor with hlevel | hcount
    · apply Prog.Once.bind_right
      · apply Prog.Keeps.set
        intro s s' h
        obtain rfl := Option.some.inj h
        apply hlevel
      · intro _
        apply Prog.Once.bind_right hfree
        intro _
        apply Prog.Once.bind_left (Prog.Once.set _)
        intro _
        apply Prog.Keeps.pure
    · apply Prog.Once.bind_left (Prog.Once.set _)
      intro _
      apply Prog.Keeps.bind hfree
      intro _
      apply Prog.Keeps.bind (Prog.Keeps.set _)
      · intro _
        apply Prog.Keeps.pure
      · intro s s' h
        obtain rfl := Option.some.inj h
        apply hcount

/-- A call changes the level, and the count, at most once. -/
theorem slBody_once (rand : R → ℕ × R) (fuel : ℕ) (call : SlCall)
    (ho : ∀ s mem brk rng, o { s with mem, brk, rng } = o s)
    (hor : (∀ s level, o { s with level } = o s) ∨ ∀ s count, o { s with count } = o s) :
  (slBody rand fuel call).Once o
  := by
  cases call with
  | put k v =>
    apply Prog.Once.bind_left (slPutProg_once rand fuel k v ho hor)
    intro r
    apply Prog.Keeps.pure
  | get k =>
    apply Prog.Keeps.once
    apply Prog.Keeps.bind (slGetProg_readOnly fuel k).keeps
    intro x
    apply Prog.Keeps.pure
  | del k =>
    apply Prog.Once.bind_left (slDelProg_once fuel k (fun s mem => ho s mem s.brk s.rng) hor)
    intro r
    apply Prog.Keeps.pure
  | range lo hi limit cb =>
    apply Prog.Keeps.once
    apply Prog.Keeps.bind (slRangeProg_readOnly fuel lo hi limit _ _).keeps
    intro x
    apply Prog.Keeps.pure

end Observations

end Keybench
