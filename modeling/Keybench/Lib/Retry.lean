import Mathlib.Data.Nat.Find
import Mathlib.Tactic.Use

/-!
# Retrying an operation

An operation answers with a code and is done again while the code is `again`.  `loop` does it
a bounded number of times, and `settle` as often as it takes when the operation settles.  What
holds of the attempt that ends the loop and is kept under an attempt before it holds of the
whole loop (`settle_induct`).
-/

namespace Retry

variable {C S T : Type*} [DecidableEq C] {again : C}

/-- Do an operation at most `fuel` times until its code is not `again`. -/
def loop (again : C) (op : S → C × S) : ℕ → S → Option (C × S)
  | 0, _ => none
  | fuel + 1, s =>
    let (c, s) := op s
    if c = again then loop again op fuel s else some (c, s)

/-- The code is not `again` after finitely many attempts. -/
def Settles (again : C) (op : S → C × S) (s : S) : Prop :=
  ∃ fuel, (loop again op fuel s).isSome

/-- Do an operation until its code is not `again`. -/
def settle (again : C) (op : S → C × S) (s : S) (h : Settles again op s) : C × S :=
  (loop again op (Nat.find h) s).get (Nat.find_spec h)

variable {op : S → C × S} {s : S}

theorem loop_of_again (h : (op s).1 = again) (fuel : ℕ) :
  loop again op (fuel + 1) s = loop again op fuel (op s).2
  := by
  rw [loop]
  apply if_pos h

theorem loop_of_ne (h : (op s).1 ≠ again) (fuel : ℕ) :
  loop again op (fuel + 1) s = some (op s)
  := by
  rw [loop]
  apply if_neg h

/-- More attempts do not change the outcome. -/
theorem loop_mono {r : C × S} {fuel fuel' : ℕ} (hle : fuel ≤ fuel')
    (h : loop again op fuel s = some r) :
  loop again op fuel' s = some r
  := by
  induction fuel generalizing fuel' s with
  | zero => cases h
  | succ fuel ih =>
    obtain ⟨n, rfl⟩ := Nat.exists_eq_add_of_le' (Nat.le_trans (Nat.succ_le_succ fuel.zero_le) hle)
    by_cases hop : (op s).1 = again
    · rw [loop_of_again hop] at h ⊢
      apply ih (Nat.le_of_succ_le_succ hle) h
    · rw [loop_of_ne hop] at h ⊢
      apply h

/-- The outcome of the loop is that of any number of attempts that is enough. -/
theorem settle_eq_of_loop (h : Settles again op s) {r : C × S} (fuel : ℕ)
    (hr : loop again op fuel s = some r) :
  settle again op s h = r
  := by
  have hfind : loop again op (Nat.find h) s = some (settle again op s h) :=
    (Option.some_get _).symm
  have hle := le_total fuel (Nat.find h)
  rcases hle with hle | hle
  · rw [loop_mono hle hr] at hfind
    apply (Option.some.inj hfind).symm
  · rw [loop_mono hle hfind] at hr
    apply Option.some.inj hr

/-- An operation that settles at once. -/
theorem settles_of_ne (h : (op s).1 ≠ again) :
  Settles again op s
  := by
  use 1
  rw [loop_of_ne h]
  rfl

/-- The outcome when the first attempt ends the loop. -/
theorem settle_of_ne (h : Settles again op s) (hne : (op s).1 ≠ again) :
  settle again op s h = op s
  := by
  apply settle_eq_of_loop h 1
  apply loop_of_ne hne

/-- The rule for loops: `motive` holds of the attempt that ends the loop, and is kept when an
attempt comes before. -/
theorem settle_induct {motive : S → C × S → Prop}
    (done : ∀ s, (op s).1 ≠ again → motive s (op s))
    (retry : ∀ s r, (op s).1 = again → motive (op s).2 r → motive s r)
    (h : Settles again op s) :
  motive s (settle again op s h)
  := by
  have hloop : ∀ fuel s r, loop again op fuel s = some r → motive s r := by
    intro fuel
    induction fuel with
    | zero =>
      intro s r hr
      cases hr
    | succ fuel ih =>
      intro s r hr
      by_cases hop : (op s).1 = again
      · rw [loop_of_again hop] at hr
        apply retry s r hop (ih _ _ hr)
      · rw [loop_of_ne hop] at hr
        rw [← Option.some.inj hr]
        apply done s hop
  apply hloop (Nat.find h)
  apply (Option.some_get _).symm

/-- What holds of all codes holds of the last. -/
theorem settle_code {P : C → Prop} (h : Settles again op s) (hop : ∀ s, P (op s).1) :
  P (settle again op s h).1
  := by
  apply settle_induct (motive := fun _ r => P r.1)
  · intro s _
    apply hop
  · intro s r _ hr
    apply hr

/-! ## Operations on a state with more to it -/

section Map

variable {op' : T → C × T} (proj : T → S) {t : T}
  (hop : ∀ t, ((op' t).1, proj (op' t).2) = op (proj t))

include hop

/-- The loop on a state with more to it. -/
theorem loop_map (fuel : ℕ) (t : T) :
  (loop again op' fuel t).map (fun r => (r.1, proj r.2)) = loop again op fuel (proj t)
  := by
  induction fuel generalizing t with
  | zero => rfl
  | succ fuel ih =>
    have hcode : (op (proj t)).1 = (op' t).1 := by rw [← hop]
    by_cases hagain : (op' t).1 = again
    · rw [loop_of_again hagain, loop_of_again (hcode.trans hagain), ih, ← hop]
    · rw [loop_of_ne hagain, loop_of_ne (fun h => hagain (hcode.symm.trans h)), ← hop,
        Option.map_some]

/-- An operation on a state with more to it settles when the operation does. -/
theorem settles_map (h : Settles again op (proj t)) :
  Settles again op' t
  := by
  obtain ⟨fuel, hfuel⟩ := h
  use fuel
  rw [← loop_map proj hop] at hfuel
  simpa using hfuel

/-- The outcome on a state with more to it. -/
theorem settle_map (h : Settles again op (proj t)) (h' : Settles again op' t) :
  ((settle again op' t h').1, proj (settle again op' t h').2) = settle again op (proj t) h
  := by
  symm
  apply settle_eq_of_loop h (Nat.find h')
  rw [← loop_map proj hop]
  apply Option.map_eq_some_iff.mpr
  exact ⟨_, (Option.some_get (Nat.find_spec h')).symm, rfl⟩

end Map

end Retry
