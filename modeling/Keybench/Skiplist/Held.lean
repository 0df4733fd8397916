import Keybench.Kv.Backend
import Keybench.Skiplist.History

/-!
# The skiplist as an engine

A `HeldSkiplist` is a skiplist together with the contents it holds, so that its operations
cannot fail.  `skiplistBackend` is the table of the skiplist's operations; it takes no batches.
-/

namespace Keybench

/-- A skiplist that holds some contents. -/
structure HeldSkiplist (R : Type) where
  /-- The skiplist. -/
  list : Skiplist R
  /-- The contents. -/
  contents : Contents
  holds : SlHolds list contents

namespace HeldSkiplist

variable {R : Type}

/-- A bound on the steps of an operation. -/
def fuel (s : HeldSkiplist R) : ℕ := s.contents.entries.length + 2

/-- A new skiplist. -/
def new (rng : R) : HeldSkiplist R := ⟨skiplistOpen rng, OrderedMap.empty, SlHolds.open rng⟩

theorem fuel_enough (s : HeldSkiplist R) :
  s.contents.entries.length + 1 < s.fuel
  := Nat.lt_succ_self _

section Operations

variable {rand : R → ℕ × R} (hrand : ∀ r, 0 < (rand r).1 ∧ (rand r).1 ≤ slMaxLevel)
  (s : HeldSkiplist R)

include hrand in
theorem put_isSome (k v : Bytes) :
  (slPut rand s.fuel s.list k v).isSome
  := by
  obtain ⟨s', hrun, -⟩ := slPut_spec s.holds hrand k v s.fuel_enough
  rw [hrun]
  rfl

theorem del_isSome (k : Bytes) :
  (slDel s.fuel s.list k).isSome
  := by
  obtain ⟨s', hrun, -⟩ := slDel_spec s.holds k s.fuel_enough
  rw [hrun]
  rfl

theorem get_isSome (k : Bytes) :
  (slGet s.fuel s.list k).isSome
  := by
  rw [slGet_spec s.holds k s.fuel_enough]
  rfl

theorem range_isSome {σ : Type} (lo hi : Bytes) (limit : ℤ) (cb : RowCallback σ Bytes Bytes)
    (st : σ) :
  (slRange s.fuel s.list lo hi limit cb st).isSome
  := by
  rw [slRange_spec s.holds lo hi limit cb st s.fuel_enough]
  rfl

/-- `sl_put`. -/
def put (k v : Bytes) : ℤ × HeldSkiplist R :=
  let out := (slPut rand s.fuel s.list k v).get (s.put_isSome hrand k v)
  (out.1, {
    list := out.2
    contents := s.contents.insert k v
    holds := by
      obtain ⟨s', hrun, h'⟩ := slPut_spec s.holds hrand k v s.fuel_enough
      have hout : out = (0, s') := Option.get_of_eq_some _ hrun
      rw [hout]
      apply h' })

/-- `sl_del`. -/
def del (k : Bytes) : ℤ × HeldSkiplist R :=
  let out := (slDel s.fuel s.list k).get (s.del_isSome k)
  (out.1, {
    list := out.2
    contents := s.contents.erase k
    holds := by
      obtain ⟨s', hrun, h'⟩ := slDel_spec s.holds k s.fuel_enough
      have hout : out = (_, s') := Option.get_of_eq_some _ hrun
      rw [hout]
      apply h' })

/-- `sl_get`. -/
def get (k : Bytes) : ℤ × Bytes :=
  let out := (slGet s.fuel s.list k).get (s.get_isSome k)
  (out.1, out.2.getD [])

/-- `sl_range`. -/
def range {σ : Type} (lo hi : Bytes) (limit : ℤ) (cb : RowCallback σ Bytes Bytes) (st : σ) :
    ℤ × σ :=
  (slRange s.fuel s.list lo hi limit cb st).get (s.range_isSome lo hi limit cb st)

/-- A put succeeds. -/
theorem put_code (k v : Bytes) :
  (s.put hrand k v).1 = 0
  := by
  obtain ⟨s', hrun, -⟩ := slPut_spec s.holds hrand k v s.fuel_enough
  have hout : (slPut rand s.fuel s.list k v).get (s.put_isSome hrand k v) = (0, s') :=
    Option.get_of_eq_some _ hrun
  apply congrArg Prod.fst hout

/-- A delete tells whether the key was present. -/
theorem del_code (k : Bytes) :
  (s.del k).1 = if (s.contents.lookup k).isSome then 1 else 0
  := by
  obtain ⟨s', hrun, -⟩ := slDel_spec s.holds k s.fuel_enough
  have hout : (slDel s.fuel s.list k).get (s.del_isSome k)
      = (if (s.contents.lookup k).isSome then 1 else 0, s') := Option.get_of_eq_some _ hrun
  apply congrArg Prod.fst hout

/-- A lookup finds the value of the key. -/
theorem get_eq (k : Bytes) :
  s.get k = match s.contents.lookup k with
    | some v => (1, v)
    | none => (0, [])
  := by
  have hrun := slGet_spec s.holds k s.fuel_enough
  have hout : (slGet s.fuel s.list k).get (s.get_isSome k) = match s.contents.lookup k with
    | some v => (1, some v)
    | none => (0, none) := Option.get_of_eq_some _ hrun
  rw [get, hout]
  cases s.contents.lookup k with
  | some v => rfl
  | none => rfl

end Operations

end HeldSkiplist

/-- The operations of the skiplist. -/
def skiplistBackend {R : Type} {rand : R → ℕ × R}
    (hrand : ∀ r, 0 < (rand r).1 ∧ (rand r).1 ≤ slMaxLevel) : KvBackend (HeldSkiplist R) where
  put s k v := s.put hrand k v
  putbatch := none
  get s k := ((s.get k).1, (s.get k).2, s)
  del s k := s.del k
  delbatch := none
  range s lo hi limit cb st := s.range lo hi limit cb st
  range_calls s lo hi limit cb st := by
    use leading limit (s.contents.slice lo hi)
    have hrun := slRange_spec s.holds lo hi limit cb st s.fuel_enough
    rw [HeldSkiplist.range, Option.get_of_eq_some _ hrun]

end Keybench
