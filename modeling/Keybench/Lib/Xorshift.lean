import Mathlib.Logic.Function.Iterate

/-!
# Xorshift generators

A xorshift generator steps a word by adding shifted copies of the word to itself, bit by bit
and without carries.  Each of the three additions can be undone, since the bits of the sum
give back the bits of the word one after the other from the end the shift leaves alone.  So a
step is injective, and a generator that starts from a nonzero word never reaches zero.
-/

namespace Keybench

namespace Xorshift

variable {w : ℕ}

/-- The word and the word shifted to the left, added without carries. -/
def left (k : ℕ) (x : BitVec w) : BitVec w := x ^^^ (x <<< k)

/-- The word and the word shifted to the right, added without carries. -/
def right (k : ℕ) (x : BitVec w) : BitVec w := x ^^^ (x >>> k)

/-- The bits of a word shifted to the left and added. -/
theorem getLsbD_left {k i : ℕ} (x : BitVec w) (hi : i < w) :
  (left k x).getLsbD i = (x.getLsbD i ^^ (!decide (i < k) && x.getLsbD (i - k)))
  := by
  rw [left, BitVec.getLsbD_xor, BitVec.getLsbD_shiftLeft, decide_eq_true hi, Bool.true_and]

/-- The bits of a word shifted to the right and added. -/
theorem getLsbD_right {k : ℕ} (x : BitVec w) (i : ℕ) :
  (right k x).getLsbD i = (x.getLsbD i ^^ x.getLsbD (k + i))
  := by
  rw [right, BitVec.getLsbD_xor, BitVec.getLsbD_ushiftRight]

/-- Adding a word shifted to the left can be undone, from the lowest bit up. -/
theorem left_injective {k : ℕ} (hk : 0 < k) :
  Function.Injective (left (w := w) k)
  := by
  intro x y h
  apply BitVec.eq_of_getLsbD_eq
  intro i
  induction i using Nat.strongRecOn with
  | ind i ih =>
    intro hi
    have hbit := congrArg (fun z => z.getLsbD i) h
    simp only [getLsbD_left _ hi] at hbit
    rcases Nat.lt_or_ge i k with hlow | hhigh
    · simpa [hlow] using hbit
    · have hprev := ih (i - k) (by omega) (by omega)
      rw [hprev] at hbit
      apply Bool.xor_left_inj.mp hbit

/-- Adding a word shifted to the right can be undone, from the highest bit down. -/
theorem right_injective {k : ℕ} (hk : 0 < k) :
  Function.Injective (right (w := w) k)
  := by
  intro x y h
  have hfrom : ∀ n i, w ≤ i + n → x.getLsbD i = y.getLsbD i := by
    intro n
    induction n using Nat.strongRecOn with
    | ind n ih =>
      intro i hi
      rcases Nat.eq_zero_or_pos n with rfl | hn
      · rw [BitVec.getLsbD_of_ge x i hi, BitVec.getLsbD_of_ge y i hi]
      · have hbit := congrArg (fun z => z.getLsbD i) h
        simp only [getLsbD_right] at hbit
        have hprev := ih (n - 1) (by omega) (k + i) (by omega)
        rw [hprev] at hbit
        apply Bool.xor_left_inj.mp hbit
  apply BitVec.eq_of_getLsbD_eq
  intro i _
  apply hfrom w i
  omega

/-- A step of the generator with the shifts `a`, `b` and `c`. -/
def step (a b c : ℕ) (x : BitVec w) : BitVec w := left c (right b (left a x))

variable {a b c : ℕ}

theorem step_injective (ha : 0 < a) (hb : 0 < b) (hc : 0 < c) :
  Function.Injective (step (w := w) a b c)
  := ((left_injective hc).comp (right_injective hb)).comp (left_injective ha)

/-- Zero steps to itself. -/
theorem step_zero :
  step a b c (0#w) = 0#w
  := by
  simp [step, left, right]

/-- A nonzero word steps to a nonzero word. -/
theorem step_ne_zero (ha : 0 < a) (hb : 0 < b) (hc : 0 < c) {x : BitVec w} (hx : x ≠ 0#w) :
  step a b c x ≠ 0#w
  := by
  intro h
  apply hx
  apply step_injective ha hb hc
  rw [h, step_zero]

end Xorshift

end Keybench
