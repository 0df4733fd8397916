import Keybench.Lib.OrderedMap
import Mathlib.Data.List.Lex
import Mathlib.Data.UInt

/-!
# Byte strings

The keys and values of a store are byte strings.  `kvKeycmp` is the comparison every
engine orders its keys by: `memcmp` on the common length, then the shorter string
first.  Its sign is the lexicographic order of byte strings (`kvKeycmp_neg_iff`,
`kvKeycmp_eq_zero_iff`, `kvKeycmp_nonneg_iff`).  `Contents` are the maps of byte strings
ordered that way.
-/

namespace Keybench

/-- Bytes are ordered by their value. -/
instance byteOrder : LinearOrder UInt8 where
  le_refl _ := UInt8.le_refl _
  le_trans _ _ _ := UInt8.le_trans
  le_antisymm _ _ := UInt8.le_antisymm
  lt_iff_le_not_ge _ _ := by
    simp only [UInt8.lt_iff_toNat_lt, UInt8.le_iff_toNat_le]
    omega
  le_total _ _ := UInt8.le_total _ _
  toDecidableLE := inferInstance
  toDecidableEq := inferInstance
  toDecidableLT := inferInstance

/-- A C buffer with its length. -/
abbrev Bytes : Type := List UInt8

/-- The contents of a store. -/
abbrev Contents : Type := OrderedMap Bytes Bytes

/-- The bytes of an ASCII literal of the source. -/
def ascii (s : String) : Bytes :=
  s.toList.map (fun c => c.toNat.toUInt8)

/-- `memcmp a b n`: the difference of the first pair of differing bytes among the
first `n`, or `0` when there is none. -/
def memcmp : Bytes → Bytes → ℕ → ℤ
  | x :: a, y :: b, n + 1 => if x = y then memcmp a b n else (x.toNat : ℤ) - y.toNat
  | _, _, _ => 0

/-- The C truth value of a comparison. -/
def truth (p : Prop) [Decidable p] : ℤ := if p then 1 else 0

/-- The comparison of keys shared by the engines. -/
def kvKeycmp (a b : Bytes) : ℤ :=
  let n := if a.length < b.length then a.length else b.length
  let c := memcmp a b n
  if c ≠ 0 then c else truth (a.length > b.length) - truth (a.length < b.length)

/-! ## The order of keys -/

/-- The empty string compared with itself. -/
theorem kvKeycmp_nil_nil :
  kvKeycmp [] [] = 0
  := rfl

/-- The empty string comes before every other. -/
theorem kvKeycmp_nil_cons (y : UInt8) (b : Bytes) :
  kvKeycmp [] (y :: b) = -1
  := by
  simp [kvKeycmp, memcmp, truth]

/-- A non-empty string comes after the empty one. -/
theorem kvKeycmp_cons_nil (x : UInt8) (a : Bytes) :
  kvKeycmp (x :: a) [] = 1
  := by
  simp [kvKeycmp, memcmp, truth]

/-- The first bytes decide the comparison when they differ, the tails otherwise. -/
theorem kvKeycmp_cons_cons (x y : UInt8) (a b : Bytes) :
  kvKeycmp (x :: a) (y :: b) = if x = y then kvKeycmp a b else (x.toNat : ℤ) - y.toNat
  := by
  have hdiff : x ≠ y → (x.toNat : ℤ) - y.toNat ≠ 0 := by
    intro hxy h
    apply hxy
    apply UInt8.toNat_inj.mp
    omega
  by_cases hlt : a.length < b.length
  · by_cases hxy : x = y
    · simp [kvKeycmp, memcmp, hlt, hxy]
    · simp [kvKeycmp, memcmp, hlt, hxy, hdiff hxy]
  · by_cases hxy : x = y
    · simp [kvKeycmp, memcmp, hlt, hxy]
    · simp [kvKeycmp, memcmp, hlt, hxy, hdiff hxy]

/-- `kvKeycmp` is zero exactly on equal strings. -/
theorem kvKeycmp_eq_zero_iff (a b : Bytes) :
  kvKeycmp a b = 0 ↔ a = b
  := by
  induction a generalizing b with
  | nil =>
    cases b with
    | nil => simp [kvKeycmp_nil_nil]
    | cons y b => simp [kvKeycmp_nil_cons]
  | cons x a ih =>
    cases b with
    | nil => simp [kvKeycmp_cons_nil]
    | cons y b =>
      rw [kvKeycmp_cons_cons]
      by_cases hxy : x = y
      · simp [hxy, ih]
      · have hne : x.toNat ≠ y.toNat := fun h => hxy (UInt8.toNat_inj.mp h)
        simp only [hxy, if_false, List.cons.injEq, false_and, iff_false]
        omega

/-- `kvKeycmp` is negative exactly when the first string is lexicographically smaller. -/
theorem kvKeycmp_neg_iff (a b : Bytes) :
  kvKeycmp a b < 0 ↔ a < b
  := by
  induction a generalizing b with
  | nil =>
    cases b with
    | nil => simp [kvKeycmp_nil_nil]
    | cons y b => simp [kvKeycmp_nil_cons]
  | cons x a ih =>
    cases b with
    | nil => simp [kvKeycmp_cons_nil]
    | cons y b =>
      rw [kvKeycmp_cons_cons, List.cons_lt_cons_iff, UInt8.lt_iff_toNat_lt]
      by_cases hxy : x = y
      · simp [hxy, ih]
      · simp only [hxy, if_false, false_and, or_false]
        omega

/-- `kvKeycmp` is nonnegative exactly when the first string is not smaller. -/
theorem kvKeycmp_nonneg_iff (a b : Bytes) :
  0 ≤ kvKeycmp a b ↔ b ≤ a
  := by
  rw [← not_lt, kvKeycmp_neg_iff, not_lt]

end Keybench
