import Keybench.Lib.Xorshift
import Keybench.Skiplist.Levels
import Mathlib.RingTheory.Multiplicity

/-!
# The heights drawn

The generator of the skiplist is a xorshift generator, and the height drawn is one more than
the number of times `slP` divides the new state, up to `slMaxLevel`.  No seed makes the first
state zero, so no state is (`rngAfter_drawn`), and the state of a skiplist is always one the
generator reaches from its seed (`slAfter_rng`).
-/

namespace Keybench

/-- The generator's state after `n` draws from the seed. -/
def rngAfter (seed : UInt32) (n : ℕ) : UInt64 :=
  (fun rng => (randLevel rng).2)^[n] (skiplistSeed seed)

/-! ## The states -/

/-- The first state is not zero: the seed's part of it is too small to cancel the constant. -/
theorem skiplistSeed_ne_zero (seed : UInt32) :
  skiplistSeed seed ≠ 0
  := by
  have hseed : seed.toNat < 2 ^ 32 := seed.toNat_lt
  have hpart : (seed.toUInt64 * 2654435761 + 1).toNat = seed.toNat * 2654435761 + 1 := by
    simp only [UInt64.toNat_add, UInt64.toNat_mul, UInt32.toNat_toUInt64, UInt64.toNat_ofNat]
    omega
  intro h
  have heq : (0x9e3779b97f4a7c15 : UInt64) = seed.toUInt64 * 2654435761 + 1 :=
    UInt64.xor_eq_zero_iff.mp h
  have hnat := congrArg UInt64.toNat heq
  rw [hpart] at hnat
  have hconst : (0x9e3779b97f4a7c15 : UInt64).toNat = 0x9e3779b97f4a7c15 := rfl
  omega

/-- A draw is a step of the xorshift generator with the shifts `13`, `7` and `17`. -/
theorem toBitVec_randLevel (rng : UInt64) :
  (randLevel rng).2.toBitVec = Xorshift.step 13 7 17 rng.toBitVec
  := rfl

/-- A draw from a nonzero state leaves a nonzero state. -/
theorem randLevel_ne_zero {rng : UInt64} (h : rng ≠ 0) :
  (randLevel rng).2 ≠ 0
  := by
  intro hzero
  have hne : rng.toBitVec ≠ 0#64 := fun heq => h (UInt64.toBitVec_inj.mp heq)
  apply Xorshift.step_ne_zero (a := 13) (b := 7) (c := 17) (by omega) (by omega) (by omega) hne
  rw [← toBitVec_randLevel, hzero]
  rfl

theorem rngAfter_succ (seed : UInt32) (n : ℕ) :
  rngAfter seed (n + 1) = (randLevel (rngAfter seed n)).2
  := Function.iterate_succ_apply' _ n _

/-- No state is zero. -/
theorem rngAfter_ne_zero (seed : UInt32) (n : ℕ) :
  rngAfter seed n ≠ 0
  := by
  induction n with
  | zero => apply skiplistSeed_ne_zero
  | succ n ih =>
    rw [rngAfter_succ]
    apply randLevel_ne_zero ih

/-! ## The heights -/

/-- Dividing by the base takes one off the multiplicity. -/
theorem multiplicity_div {b m : ℕ} (hb : 1 < b) (hm : 0 < m) (hdvd : b ∣ m) :
  multiplicity b m = multiplicity b (m / b) + 1
  := by
  obtain ⟨q, rfl⟩ := hdvd
  have hq : 0 < q := Nat.pos_of_mul_pos_left hm
  have hfin : FiniteMultiplicity b q := Nat.finiteMultiplicity_iff.mpr ⟨by omega, hq⟩
  have hfin' : FiniteMultiplicity b (b * q) := Nat.finiteMultiplicity_iff.mpr ⟨by omega, hm⟩
  have hb0 : 0 < b := by omega
  obtain ⟨hk, hk'⟩ := hfin.multiplicity_eq_iff.mp rfl
  rw [Nat.mul_div_cancel_left q hb0]
  apply hfin'.multiplicity_eq_iff.mpr
  constructor
  · rw [pow_succ']
    apply Nat.mul_dvd_mul_left b hk
  · rw [pow_succ']
    intro h
    apply hk'
    apply Nat.dvd_of_mul_dvd_mul_left hb0 h

/-- The height climbs by one for each time `slP` divides the state, up to the cap. -/
theorem randClimb_eq (n lvl : ℕ) {x : UInt64} (hx : x ≠ 0) :
  randClimb n lvl x = lvl + min n (multiplicity 4 x.toNat)
  := by
  induction n generalizing lvl x with
  | zero => rw [randClimb, Nat.zero_min, Nat.add_zero]
  | succ n ih =>
    have hpos : 0 < x.toNat := Nat.pos_of_ne_zero (fun h => hx (UInt64.toNat_inj.mp h))
    have hmod : x % slP = 0 ↔ 4 ∣ x.toNat := by
      rw [← UInt64.toNat_inj, UInt64.toNat_mod, Nat.dvd_iff_mod_eq_zero]
      rfl
    rw [randClimb]
    split_ifs with h
    · have hdvd := hmod.mp h
      have hdiv : (x / slP).toNat = x.toNat / 4 := UInt64.toNat_div x slP
      have hne : x / slP ≠ 0 := by
        intro hzero
        have hnat := hdiv.symm.trans (congrArg UInt64.toNat hzero)
        have hle := Nat.le_of_dvd hpos hdvd
        have hzero' : (0 : UInt64).toNat = 0 := rfl
        omega
      rw [ih (lvl + 1) hne, hdiv, multiplicity_div (by omega) hpos hdvd]
      omega
    · have hmult : multiplicity 4 x.toNat = 0 :=
        multiplicity_eq_zero.mpr (fun hdvd => h (hmod.mpr hdvd))
      rw [hmult, Nat.min_zero, Nat.add_zero]

/-- Whatever the seed and the number of draws before, the state is not zero, and the height
drawn is from `1` to `slMaxLevel` and one more than the number of times `4` divides the new
state, up to the cap. -/
theorem rngAfter_drawn (seed : UInt32) (n : ℕ) :
  rngAfter seed n ≠ 0 ∧
    1 ≤ (randLevel (rngAfter seed n)).1 ∧ (randLevel (rngAfter seed n)).1 ≤ slMaxLevel ∧
    (randLevel (rngAfter seed n)).1
      = 1 + min (slMaxLevel - 1) (multiplicity 4 (rngAfter seed (n + 1)).toNat)
  := by
  have hheight := randLevel_height (rngAfter seed n)
  use rngAfter_ne_zero seed n, hheight.1, hheight.2
  rw [rngAfter_succ]
  apply randClimb_eq _ _ (randLevel_ne_zero (rngAfter_ne_zero seed n))

/-! ## The state of a skiplist -/

section Runs

variable {R : Type} {rand : R → ℕ × R} {fuel : ℕ}

/-- A put draws at most once. -/
theorem slPut_rng {s s' : Skiplist R} {k v : Bytes} {rc : ℤ}
    (h : slPut rand fuel s k v = some (rc, s')) :
  s'.rng = s.rng ∨ s'.rng = (rand s.rng).2
  := by
  simp only [slPut, Option.bind_eq_bind, Option.bind_eq_some_iff] at h
  obtain ⟨⟨x, update⟩, -, y, -, h⟩ := h
  cases y with
  | some y =>
    simp only [Option.bind_eq_some_iff, Option.some.injEq, Prod.mk.injEq] at h
    obtain ⟨c, -, -, rfl⟩ := h
    left
    rfl
  | none =>
    simp only [Option.bind_eq_some_iff, Option.some.injEq, Prod.mk.injEq] at h
    obtain ⟨update', -, mem, -, -, rfl⟩ := h
    right
    rfl

/-- A delete does not draw. -/
theorem slDel_rng {s s' : Skiplist R} {k : Bytes} {rc : ℤ}
    (h : slDel fuel s k = some (rc, s')) :
  s'.rng = s.rng
  := by
  simp only [slDel, Option.bind_eq_bind, Option.bind_eq_some_iff] at h
  obtain ⟨⟨x, update⟩, -, y, -, h⟩ := h
  cases y with
  | none =>
    simp only [Option.some.injEq, Prod.mk.injEq] at h
    obtain ⟨-, rfl⟩ := h
    rfl
  | some y =>
    simp only [Option.bind_eq_some_iff, Option.some.injEq, Prod.mk.injEq] at h
    obtain ⟨mem, -, level, -, -, rfl⟩ := h
    rfl

/-- A call puts, deletes or leaves the skiplist as it is. -/
theorem slStep_cases {s s' : Skiplist R} {call : SlCall} {answer : SlAnswer}
    (h : slStep rand fuel s call = some (answer, s')) :
  (∃ k v rc, slPut rand fuel s k v = some (rc, s')) ∨ (∃ k rc, slDel fuel s k = some (rc, s')) ∨
    s' = s
  := by
  cases call
  all_goals
    simp only [slStep, Option.bind_eq_bind, Option.bind_eq_some_iff, Option.some.injEq,
      Prod.mk.injEq] at h
  case put k v =>
    obtain ⟨⟨rc, t⟩, hput, -, rfl⟩ := h
    left
    use k, v, rc
  case get k =>
    obtain ⟨-, -, -, rfl⟩ := h
    right; right
    rfl
  case del k =>
    obtain ⟨⟨rc, t⟩, hdel, -, rfl⟩ := h
    right; left
    use k, rc
  case range lo hi limit cb =>
    obtain ⟨-, -, -, rfl⟩ := h
    right; right
    rfl

/-- A call draws at most once. -/
theorem slStep_rng {s s' : Skiplist R} {call : SlCall} {answer : SlAnswer}
    (h : slStep rand fuel s call = some (answer, s')) :
  s'.rng = s.rng ∨ s'.rng = (rand s.rng).2
  := by
  rcases slStep_cases h with ⟨k, v, rc, hput⟩ | ⟨k, rc, hdel⟩ | rfl
  · apply slPut_rng hput
  · left
    apply slDel_rng hdel
  · left
    rfl

/-- A run draws at most once a call. -/
theorem slAfter_draws {s s' : Skiplist R} {calls : List SlCall}
    (h : slAfter rand fuel s calls = some s') :
  ∃ n ≤ calls.length, s'.rng = (fun r => (rand r).2)^[n] s.rng
  := by
  induction calls generalizing s with
  | nil =>
    obtain rfl := Option.some.inj h
    use 0, le_rfl
    rfl
  | cons call calls ih =>
    simp only [slAfter, Option.bind_eq_bind, Option.bind_eq_some_iff] at h
    obtain ⟨⟨answer, t⟩, hstep, hrest⟩ := h
    obtain ⟨n, hn, hs'⟩ := ih hrest
    rcases slStep_rng hstep with hsame | hdraw
    · use n, hn.trans (Nat.le_succ _)
      rw [hs', hsame]
    · use n + 1, Nat.succ_le_succ hn
      rw [hs', hdraw, Function.iterate_succ_apply]

end Runs

/-- After any calls on a skiplist opened on a seed, its generator is in a state reached from
the seed, with at most one draw a call. -/
theorem slAfter_rng {seed : UInt32} {fuel : ℕ} {s : Skiplist UInt64} {calls : List SlCall}
    (h : slAfter randLevel fuel (skiplistBackendOpen seed) calls = some s) :
  ∃ n ≤ calls.length, s.rng = rngAfter seed n
  := slAfter_draws h

end Keybench
