import Keybench.Kv.Limits
import Keybench.Workload.IndexLoad

/-!
# Range scans by index

`run` of mixed and of valsize reads, writes or deletes a key at random, or asks for the keys of
a window of indices.  As long as the indices have at most twelve digits, such a scan returns the
stored indices of its window in numeric order (`window_range`).
-/

namespace Keybench

/-! ## The workloads -/

/-- `SCAN_WINDOW` of mixed and valsize. -/
def scanWindow : ℤ := 100

/-- The arguments of `kv_range` for the window at `start`. -/
def windowArgs (start : ℤ) : Option (List LuaArg) := do
  let lo ← key start
  let hi ← key (luaWrap (start + scanWindow))
  some [luaString lo, luaString hi, .text (fmtInt scanWindow) (some scanWindow)]

/-- A window whose end fits in 64 bits. -/
theorem windowArgs_of_lt {start : ℕ} (hfits : start + scanWindow < 2 ^ 63) :
  windowArgs start = some [luaString (indexKey start), luaString (indexKey (start + scanWindow)),
    .text (fmtInt scanWindow) (some scanWindow)]
  := by
  have hend : (0 : ℤ) ≤ start + scanWindow := by
    rw [scanWindow]
    omega
  rw [windowArgs, luaWrap_of_lt hend hfits, key_of_nonneg (Int.natCast_nonneg start),
    key_of_nonneg hend]
  rfl

section Runs

variable {G : Type} (rng : LuaRandom G)

/-- `rnd`, which raises an error when there are no indices. -/
def rnd (n : ℤ) (g : G) : Option (ℤ × G) := if n < 1 then none else some (rng.random g 0 (n - 1))

/-- `run` with the value that is written: the call it makes, or `none` when it raises an error. -/
def indexRun (value : Option Bytes) (items : ℤ) (g : G) : Option ((KvVerb × List LuaArg) × G) :=
  if items < 1 then none
  else
    let (roll, g) := rng.random g 1 100
    if roll ≤ 50 then do
      let (i, g) ← rnd rng items g
      let k ← key i
      some ((.get, [luaString k]), g)
    else if roll ≤ 80 then do
      let (i, g) ← rnd rng items g
      let k ← key i
      let v ← value
      some ((.put, [luaString k, luaString v]), g)
    else if roll ≤ 90 then do
      let (i, g) ← rnd rng items g
      let k ← key i
      some ((.del, [luaString k]), g)
    else do
      let (start, g) ← rnd rng items g
      let args ← windowArgs start
      some ((.range, args), g)

/-- `run` of mixed. -/
def mixedRun (items : ℤ) (g : G) : Option ((KvVerb × List LuaArg) × G) :=
  indexRun rng (some indexValue) items g

/-- `run` of valsize. -/
def valsizeRun (valuebytes items : ℤ) (g : G) : Option ((KvVerb × List LuaArg) × G) :=
  indexRun rng (valueFor valuebytes) items g

/-- An index that is drawn. -/
theorem rnd_spec {n : ℤ} {g g' : G} {i : ℤ} (h : rnd rng n g = some (i, g')) :
  0 ≤ i ∧ i < n
  := by
  rw [rnd] at h
  split_ifs at h with hn
  have hmem := rng.random_mem g 0 (n - 1) (by omega)
  rw [Option.some.inj h] at hmem
  omega

/-- The scans of `run` are those of a window that starts at an index below `items`. -/
theorem indexRun_range {value : Option Bytes} {items : ℤ} {g g' : G} {args : List LuaArg}
    (h : indexRun rng value items g = some ((.range, args), g')) :
  ∃ start : ℕ, start < items ∧ windowArgs start = some args
  := by
  rw [indexRun] at h
  dsimp only at h
  split_ifs at h
  · obtain ⟨_, -, h⟩ := Option.bind_eq_some_iff.mp h
    obtain ⟨_, -, h⟩ := Option.bind_eq_some_iff.mp h
    cases h
  · obtain ⟨_, -, h⟩ := Option.bind_eq_some_iff.mp h
    obtain ⟨_, -, h⟩ := Option.bind_eq_some_iff.mp h
    obtain ⟨_, -, h⟩ := Option.bind_eq_some_iff.mp h
    cases h
  · obtain ⟨_, -, h⟩ := Option.bind_eq_some_iff.mp h
    obtain ⟨_, -, h⟩ := Option.bind_eq_some_iff.mp h
    cases h
  · obtain ⟨⟨start, g₁⟩, hdraw, h⟩ := Option.bind_eq_some_iff.mp h
    obtain ⟨args', hargs, h⟩ := Option.bind_eq_some_iff.mp h
    obtain ⟨hnonneg, hlt⟩ := rnd_spec rng hdraw
    obtain ⟨rfl, -⟩ : args' = args ∧ g₁ = g' := by simpa using h
    use start.toNat
    rw [Int.toNat_of_nonneg hnonneg]
    exact ⟨hlt, hargs⟩

/-- The scans of mixed and of valsize are those of a window that starts at an index below
`items`. -/
theorem run_range {valuebytes items : ℤ} {g g' : G} {args : List LuaArg}
    (h : mixedRun rng items g = some ((.range, args), g') ∨
      valsizeRun rng valuebytes items g = some ((.range, args), g')) :
  ∃ start : ℕ, start < items ∧ windowArgs start = some args
  := h.elim (indexRun_range rng) (indexRun_range rng)

end Runs

/-! ## Windows -/

/-- The stored indices of the window at `start`, in numeric order, as rows. -/
def windowRows (m : Contents) (start : ℕ) : List (Bytes × Bytes) :=
  m.window (fun i => indexKey i) start 100

/-- A limit of a window does not cut it. -/
theorem leading_windowRows (m : Contents) (start : ℕ) :
  leading (toCInt scanWindow) (windowRows m start) = windowRows m start
  := by
  have hlimit : toCInt scanWindow = 100 := by decide
  rw [hlimit, leading, if_neg (by decide)]
  apply List.take_of_length_le
  apply OrderedMap.length_window_le

section Skiplist

variable {R C : Type} {rand : R → ℕ × R} (hrand : ∀ r, 0 < (rand r).1 ∧ (rand r).1 ≤ slMaxLevel)
  (clock : C → UInt64 × C)

/-- Up to twelve digits the order of keys is numeric, and on a skiplist whose keys are those of
some indices below `items`, a scan of a window returns exactly the stored indices of the window,
in numeric order. -/
theorem window_range {items start : ℕ} (hitems : (items : ℤ) + scanWindow ≤ 10 ^ 12)
    (hstart : start < items) (w : Worker (C × HeldSkiplist R))
    (hkeys : ∀ k v, w.store.2.contents.lookup k = some v → ∃ i < items, indexKey (i : ℕ) = k) :
  (∀ i j : ℕ, (i : ℤ) < items + scanWindow → (j : ℤ) < items + scanWindow →
      (kvKeycmp (indexKey i) (indexKey j) < 0 ↔ i < j)) ∧
    ∃ args w', windowArgs start = some args ∧
      kvCall (skiplistStore hrand clock) args w .range
        = some (.rows (windowRows w.store.2.contents start), w')
  := by
  have hbound : items + 100 ≤ 10 ^ 12 := by
    rw [scanWindow] at hitems
    omega
  have horder : ∀ i j : ℕ, i < items + 100 → j < items + 100 →
      (indexKey i < indexKey j ↔ i < j) := fun i j hi hj =>
    indexKey_lt_iff (lt_of_lt_of_le hi hbound) (lt_of_lt_of_le hj hbound)
  constructor
  · intro i j hi hj
    rw [scanWindow] at hi hj
    rw [kvKeycmp_neg_iff]
    apply horder <;> omega
  · have hslice : w.store.2.contents.slice (indexKey start) (indexKey (start + scanWindow))
        = windowRows w.store.2.contents start := by
      have hend : (start : ℤ) + scanWindow = (start + 100 : ℕ) := by
        rw [scanWindow]
        push_cast
        rfl
      rw [hend]
      apply OrderedMap.slice_eq_window horder (by omega)
      intro k v hlook
      obtain ⟨i, hi, hik⟩ := hkeys k v hlook
      exact ⟨i, by omega, hik⟩
    have hargs := windowArgs_of_lt (show (start : ℤ) + scanWindow < 2 ^ 63 by
      rw [scanWindow]
      omega)
    obtain ⟨w', hcall, -⟩ := lRange_eq hrand clock [luaString (indexKey start),
      luaString (indexKey (start + scanWindow)), .text (fmtInt scanWindow) (some scanWindow)]
      rfl rfl rfl w
    refine ⟨_, w', hargs, ?_⟩
    rw [hcall, hslice, leading_windowRows]

end Skiplist

/-- A skiplist with the keys of some indices. -/
def indexHeld (is : List ℕ) : HeldSkiplist UInt64 :=
  is.foldl (fun s (i : ℕ) => (s.put randLevel_height (indexKey i) []).2) (.new 1)

theorem exists_of_lookup_indexHeld {is : List ℕ} {k v : Bytes}
    (h : (indexHeld is).contents.lookup k = some v) :
  ∃ i ∈ is, indexKey (i : ℕ) = k
  := by
  induction is using List.reverseRecOn with
  | nil => cases h
  | append_singleton is i ih =>
    rw [indexHeld, List.foldl_append] at h
    change ((indexHeld is).contents.insert (indexKey i) []).lookup k = some v at h
    rw [OrderedMap.lookup_insert] at h
    split_ifs at h with hk
    · exact ⟨i, by simp, hk.symm⟩
    · obtain ⟨j, hj, rfl⟩ := ih h
      exact ⟨j, List.mem_append_left _ hj, rfl⟩

/-- A window from the index two on, with stored indices before, in and after it. -/
theorem window_range_example :
  (∀ i j : ℕ, (i : ℤ) < 200 + scanWindow → (j : ℤ) < 200 + scanWindow →
      (kvKeycmp (indexKey i) (indexKey j) < 0 ↔ i < j)) ∧
    ∃ args w', windowArgs 2 = some args ∧
      kvCall (skiplistStore randLevel_height (fun u : Unit => (0, u))) args
          ⟨((), indexHeld [101, 120, 0, 10, 2]), statsReset⟩ .range
        = some (.rows (windowRows (indexHeld [101, 120, 0, 10, 2]).contents 2), w')
  := by
  have hitems : ((200 : ℕ) : ℤ) + scanWindow ≤ 10 ^ 12 := by decide
  have hkeys : ∀ k v, (indexHeld [101, 120, 0, 10, 2]).contents.lookup k = some v →
      ∃ i < 200, indexKey (i : ℕ) = k := by
    intro k v hlook
    obtain ⟨i, hi, rfl⟩ := exists_of_lookup_indexHeld hlook
    have hsmall : ∀ i ∈ [101, 120, 0, 10, 2], i < 200 := by decide
    exact ⟨i, hsmall i hi, rfl⟩
  apply window_range randLevel_height (fun u : Unit => (0, u)) hitems (by decide)
    ⟨((), indexHeld [101, 120, 0, 10, 2]), statsReset⟩ hkeys

end Keybench
