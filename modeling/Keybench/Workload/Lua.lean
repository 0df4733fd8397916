import Keybench.Libc.Numbers

/-!
# What the workloads use of Lua

Integers of Lua have 64 bits and wrap.  A random generator is any that is determined by its seed
and gives numbers of the range asked for.  Numbers are printed with a width of ten, and a printed
number tells the number (`fmt010_injective`).
-/

namespace Keybench

/-- The wrap of an integer to 64 bits. -/
def luaWrap (n : ℤ) : ℤ := n.bmod (2 ^ 64)

/-- An integer of 64 bits is not changed by the wrap. -/
theorem luaWrap_of_lt {n : ℤ} (hn : 0 ≤ n) (hlt : n < 2 ^ 63) :
  luaWrap n = n
  := by
  apply Int.bmod_eq_of_le <;> omega

/-- The values of `for i = first, last, step` for a positive step. -/
def luaFor (first last step : ℤ) : List ℤ :=
  if last < first then []
  else (List.range (((last - first) / step).toNat + 1)).map fun k : ℕ => first + k * step

/-- `math.random`, with generators of type `G`. -/
structure LuaRandom (G : Type) where
  /-- `math.randomseed`. -/
  randomseed : UInt32 → G
  /-- `math.random` of two bounds. -/
  random : G → ℤ → ℤ → ℤ × G
  random_mem : ∀ g lo hi, lo ≤ hi → lo ≤ (random g lo hi).1 ∧ (random g lo hi).1 ≤ hi

/-! ## Loops -/

/-- A loop takes its values step by step, as long as they do not pass the last. -/
theorem getElem?_luaFor {first last step : ℤ} (hstep : 0 < step) (k : ℕ) (x : ℤ) :
  (luaFor first last step)[k]? = some x ↔ x = first + k * step ∧ x ≤ last
  := by
  rw [luaFor]
  split_ifs with h
  · simp only [List.getElem?_nil, reduceCtorEq, false_iff, not_and]
    rintro rfl
    have hk : 0 ≤ (k : ℤ) * step := by positivity
    omega
  · have hnonneg : 0 ≤ (last - first) / step := Int.ediv_nonneg (by omega) hstep.le
    have hk : k ≤ ((last - first) / step).toNat ↔ first + k * step ≤ last := by
      rw [Int.le_toNat hnonneg, Int.le_ediv_iff_mul_le hstep]
      omega
    simp only [List.getElem?_eq_some_iff, List.length_map, List.length_range, List.getElem_map,
      List.getElem_range, Order.lt_add_one_iff, exists_prop, hk]
    constructor
    · rintro ⟨hle, rfl⟩
      exact ⟨rfl, hle⟩
    · rintro ⟨rfl, hle⟩
      exact ⟨hle, rfl⟩

/-! ## Printed numbers -/

/-- `%010d`. -/
def fmt010 (n : ℤ) : Bytes :=
  if n < 0 then chr '-' :: zeroPad 9 (fmtNat n.natAbs) else zeroPad 10 (fmtNat n.natAbs)

/-- A natural number is printed with digits. -/
theorem isdigit_of_mem_fmt010 {n : ℤ} (hn : 0 ≤ n) {c : UInt8} (h : c ∈ fmt010 n) :
  isdigit c = true
  := by
  rw [fmt010, if_neg (not_lt.mpr hn)] at h
  apply isdigit_of_mem_zeroPad h

/-- A printed natural number tells the number. -/
theorem fmt010_injective {m n : ℤ} (hm : 0 ≤ m) (hn : 0 ≤ n) (h : fmt010 m = fmt010 n) :
  m = n
  := by
  rw [fmt010, fmt010, if_neg (not_lt.mpr hm), if_neg (not_lt.mpr hn)] at h
  have hvalue := congrArg (ofDigits 10) h
  rw [ofDigits_zeroPad, ofDigits_zeroPad] at hvalue
  omega

end Keybench
