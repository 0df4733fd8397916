import Keybench.Bytes
import Keybench.Lib.Scan
import Mathlib.Logic.Function.Basic

/-!
# The skiplist engine

The memory-resident engine of `backends/skiplist`.  A node is a heap cell with its key, its
value and `level` forward pointers; the list is its head cell, its current level, the state
of its generator and a count.

An operation returns `none` where the C code would read a dead or unallocated cell, index a
pointer array out of its bounds, read an entry of `update` that was never written, or go
round a list `fuel` times.  The engine is generic in the generator `rand`; the one of the
source is `randLevel`.
-/

namespace Keybench

/-- `SL_MAXLEVEL`. -/
def slMaxLevel : ℕ := 24

/-- `SL_P`. -/
def slP : UInt64 := 4

/-- The address of a heap cell. -/
abbrev Addr : Type := ℕ

/-- A heap cell: `next i` is read only for `i` below `level`, the length of the flexible
array member. -/
structure SlNode where
  key : Bytes
  val : Bytes
  level : ℕ
  next : ℕ → Option Addr

/-- The heap: the live cells. -/
abbrev Mem : Type := Addr → Option SlNode

/-- The engine's own record.  `brk` is the address the allocator hands out next. -/
structure Skiplist (R : Type) where
  mem : Mem
  brk : Addr
  head : Addr
  level : ℕ
  rng : R
  count : ℤ

/-! ## Cells and pointer arrays -/

/-- Read `a->next[i]`. -/
def nextAt (mem : Mem) (a : Addr) (i : ℕ) : Option (Option Addr) := do
  let c ← mem a
  if i < c.level then some (c.next i) else none

/-- Write `a->next[i] = t`. -/
def setNext (mem : Mem) (a : Addr) (i : ℕ) (t : Option Addr) : Option Mem := do
  let c ← mem a
  if i < c.level then
    some (Function.update mem a (some { c with next := Function.update c.next i t }))
  else none

/-- The local array `sl_node *update[SL_MAXLEVEL]`, unwritten at first. -/
abbrev Update : Type := ℕ → Option Addr

/-- Write `update[i] = x`. -/
def setUpdate (update : Update) (i : ℕ) (x : Addr) : Option Update :=
  if i < slMaxLevel then some (Function.update update i (some x)) else none

/-- `node_new`. -/
def nodeNew (level : ℕ) (k v : Bytes) : SlNode where
  key := k
  val := v
  level := level
  next := fun _ => none

/-! ## The generator -/

/-- The loop of `rand_level`, `n` steps from the cap. -/
def randClimb : ℕ → ℕ → UInt64 → ℕ
  | 0, lvl, _ => lvl
  | n + 1, lvl, x => if x % slP = 0 then randClimb n (lvl + 1) (x / slP) else lvl

/-- `rand_level`: a xorshift step and the height read off the new state. -/
def randLevel (rng : UInt64) : ℕ × UInt64 :=
  let x := rng
  let x := x ^^^ (x <<< 13)
  let x := x ^^^ (x >>> 7)
  let x := x ^^^ (x <<< 17)
  (randClimb (slMaxLevel - 1) 1 x, x)

/-- The initial state `skiplist_backend_open` derives from a 32-bit seed. -/
def skiplistSeed (seed : UInt32) : UInt64 :=
  0x9e3779b97f4a7c15 ^^^ (seed.toUInt64 * 2654435761 + 1)

/-! ## Searching -/

/-- The inner loop of a search: go right on level `i` while the next key is below `k`. -/
def slWalk (mem : Mem) (k : Bytes) (i : ℕ) : ℕ → Addr → Option Addr
  | 0, _ => none
  | fuel + 1, x => do
    match ← nextAt mem x i with
    | none => some x
    | some y =>
      let c ← mem y
      if kvKeycmp c.key k < 0 then slWalk mem k i fuel y else some x

/-- The search of `sl_put` and `sl_del` over the levels below `n`, filling `update`. -/
def slDescend (mem : Mem) (k : Bytes) (fuel : ℕ) : ℕ → Addr → Update → Option (Addr × Update)
  | 0, x, update => some (x, update)
  | n + 1, x, update => do
    let x ← slWalk mem k n fuel x
    let update ← setUpdate update n x
    slDescend mem k fuel n x update

/-- The search of `sl_get` and `sl_range`, which keeps no `update`. -/
def slSeek (mem : Mem) (k : Bytes) (fuel : ℕ) : ℕ → Addr → Option Addr
  | 0, x => some x
  | n + 1, x => do
    let x ← slWalk mem k n fuel x
    slSeek mem k fuel n x

/-- `x = x->next[0]`, kept when it is a node with key `k`. -/
def slMatch (mem : Mem) (x : Addr) (k : Bytes) : Option (Option Addr) := do
  match ← nextAt mem x 0 with
  | none => some none
  | some y =>
    let c ← mem y
    if kvKeycmp c.key k = 0 then some (some y) else some none

/-! ## The operations -/

section Operations

variable {R : Type} (rand : R → ℕ × R) (fuel : ℕ)

/-- `skiplist_backend_open` with the generator in state `rng`. -/
def skiplistOpen (rng : R) : Skiplist R where
  mem := Function.update (fun _ => none) 0 (some (nodeNew slMaxLevel [] []))
  brk := 1
  head := 0
  level := 1
  rng := rng
  count := 0

/-- `for (i = lo; i < lo + n; i++) update[i] = head`. -/
def slRaise (head : Addr) (lo : ℕ) : ℕ → Update → Option Update
  | 0, update => some update
  | n + 1, update => do
    let update ← slRaise head lo n update
    setUpdate update (lo + n) head

/-- The part of `sl_put` that raises the list to the new node's level. -/
def slGrow (head : Addr) (level lvl : ℕ) (update : Update) : Option Update :=
  if lvl > level then slRaise head level (lvl - level) update else some update

/-- The linking loop of `sl_put` for the levels below `lvl`. -/
def slLink (update : Update) (n : Addr) (mem : Mem) : ℕ → Option Mem
  | 0 => some mem
  | i + 1 => do
    let mem ← slLink update n mem i
    let p ← update i
    let t ← nextAt mem p i
    let mem ← setNext mem n i t
    setNext mem p i (some n)

/-- `sl_put`. -/
def slPut (s : Skiplist R) (k v : Bytes) : Option (ℤ × Skiplist R) := do
  let (x, update) ← slDescend s.mem k fuel s.level s.head (fun _ => none)
  match ← slMatch s.mem x k with
  | some y =>
    let c ← s.mem y
    some (0, { s with mem := Function.update s.mem y (some { c with val := v }) })
  | none =>
    let (lvl, rng) := rand s.rng
    let update ← slGrow s.head s.level lvl update
    let level := if lvl > s.level then lvl else s.level
    let mem := Function.update s.mem s.brk (some (nodeNew lvl k v))
    let mem ← slLink update s.brk mem lvl
    some (0, { s with mem, brk := s.brk + 1, level, rng, count := s.count + 1 })

/-- `sl_get`: the return code and the copied value. -/
def slGet (s : Skiplist R) (k : Bytes) : Option (ℤ × Option Bytes) := do
  let x ← slSeek s.mem k fuel s.level s.head
  match ← slMatch s.mem x k with
  | some y =>
    let c ← s.mem y
    some (1, some c.val)
  | none => some (0, none)

/-- The unlinking loop of `sl_del` for the levels below a bound. -/
def slUnlink (update : Update) (x : Addr) (mem : Mem) : ℕ → Option Mem
  | 0 => some mem
  | i + 1 => do
    let mem ← slUnlink update x mem i
    let p ← update i
    let y ← nextAt mem p i
    if y = some x then
      let t ← nextAt mem x i
      setNext mem p i t
    else some mem

/-- `while (lvl > 1 && head->next[lvl - 1] == NULL) lvl--`. -/
def slShrink (mem : Mem) (head : Addr) : ℕ → Option ℕ
  | lvl + 2 => do
    match ← nextAt mem head (lvl + 1) with
    | none => slShrink mem head (lvl + 1)
    | some _ => some (lvl + 2)
  | lvl => some lvl

/-- `sl_del`. -/
def slDel (s : Skiplist R) (k : Bytes) : Option (ℤ × Skiplist R) := do
  let (x, update) ← slDescend s.mem k fuel s.level s.head (fun _ => none)
  match ← slMatch s.mem x k with
  | none => some (0, s)
  | some y =>
    let mem ← slUnlink update y s.mem s.level
    let level ← slShrink mem s.head s.level
    some (1, { s with mem := Function.update mem y none, level, count := s.count - 1 })

/-- The row loop of `sl_range` from the cell `x`, after `n` rows.  A null callback never
stops. -/
def slRangeLoop {σ : Type} (mem : Mem) (hi : Bytes) (limit : ℤ) (cb : RowCallback σ Bytes Bytes) :
    ℕ → Option Addr → ℤ → σ → Option (ℤ × σ)
  | 0, _, _, _ => none
  | _ + 1, none, n, st => some (n, st)
  | fuel + 1, some x, n, st =>
    if limit ≤ 0 ∨ n < limit then do
      let c ← mem x
      if 0 ≤ kvKeycmp c.key hi then some (n, st)
      else
        let (stop, st) := cb st c.key c.val
        if stop ≠ 0 then some (n, st)
        else
          let y ← nextAt mem x 0
          slRangeLoop mem hi limit cb fuel y (n + 1) st
    else some (n, st)

/-- `sl_range`: the row count and the last state of the callback. -/
def slRange {σ : Type} (s : Skiplist R) (lo hi : Bytes) (limit : ℤ)
    (cb : RowCallback σ Bytes Bytes) (st : σ) : Option (ℤ × σ) := do
  let x ← slSeek s.mem lo fuel s.level s.head
  let y ← nextAt s.mem x 0
  slRangeLoop s.mem hi limit cb fuel y 0 st

end Operations

end Keybench
