import Mathlib.Data.List.Basic

/-!
# Lifetimes of handles

A program acquires handles, uses them and releases them.  `run` goes through its touches and
keeps the list of the handles that are live; it fails at a touch of a handle that is not.  A
handle that is acquired twice is live twice, so that names may be used again.  A trace is
bracketed when it ends with no live handle: then each handle is released as often as it is
acquired (`Bracketed.released`), and it is touched only between the two (`acquired_of_use`).
-/

namespace Lifetime

/-- A touch of a handle. -/
inductive Touch (H : Type*) where
  /-- The handle is handed out. -/
  | acquire (h : H)
  /-- The handle is used. -/
  | use (h : H)
  /-- The handle is given back. -/
  | release (h : H)
  /-- No handle of a kind may be live here. -/
  | quiet (kind : H → Bool)

variable {H : Type*} [DecidableEq H]

/-- The live handles after a touch. -/
@[simp]
def step (live : List H) : Touch H → Option (List H)
  | .acquire h => some (h :: live)
  | .use h => if h ∈ live then some live else none
  | .release h => if h ∈ live then some (live.erase h) else none
  | .quiet kind => if live.any kind then none else some live

/-- The live handles after a trace. -/
@[simp]
def run : List H → List (Touch H) → Option (List H)
  | live, [] => some live
  | live, t :: ts => (step live t).bind fun live => run live ts

/-- All handles are touched while they are live, and none is live at the end. -/
def Bracketed (ts : List (Touch H)) : Prop := run [] ts = some []

/-- Whether a touch hands out a handle. -/
def acquires (h : H) : Touch H → Bool
  | .acquire h' => h = h'
  | _ => false

/-- Whether a touch gives back a handle. -/
def releases (h : H) : Touch H → Bool
  | .release h' => h = h'
  | _ => false

/-- A trace after another. -/
theorem run_append (live : List H) (ts us : List (Touch H)) :
  run live (ts ++ us) = (run live ts).bind fun live => run live us
  := by
  induction ts generalizing live with
  | nil => rfl
  | cons t ts ih =>
    rw [List.cons_append, run, run]
    cases step live t with
    | none => rfl
    | some live' => apply ih

/-- A trace goes on from where another ends. -/
theorem run_append_of {live live' : List H} {ts : List (Touch H)} (h : run live ts = some live')
    (us : List (Touch H)) :
  run live (ts ++ us) = run live' us
  := by
  rw [run_append, h, Option.bind_some]

/-- A handle is live as often as it was handed out and not given back. -/
theorem count_run {live live' : List H} {ts : List (Touch H)} (h : run live ts = some live')
    (x : H) :
  live'.count x + ts.countP (releases x) = live.count x + ts.countP (acquires x)
  := by
  induction ts generalizing live with
  | nil =>
    obtain rfl := Option.some.inj h
    rfl
  | cons t ts ih =>
    rw [run] at h
    obtain ⟨mid, hstep, hrest⟩ := Option.bind_eq_some_iff.mp h
    have hcount := ih hrest
    rw [List.countP_cons, List.countP_cons]
    cases t with
    | acquire y =>
      obtain rfl := Option.some.inj hstep
      rw [List.count_cons] at hcount
      by_cases hxy : x = y
      · simp only [releases, acquires, hxy, decide_true, if_true, Bool.false_eq_true, if_false,
          beq_self_eq_true] at hcount ⊢
        omega
      · have hyx : (y == x) = false := by simpa using Ne.symm hxy
        simp only [releases, acquires, hxy, hyx, decide_false, Bool.false_eq_true,
          if_false] at hcount ⊢
        omega
    | use y =>
      rw [step] at hstep
      split_ifs at hstep
      obtain rfl := Option.some.inj hstep
      apply hcount
    | release y =>
      rw [step] at hstep
      split_ifs at hstep with hy
      obtain rfl := Option.some.inj hstep
      by_cases hxy : x = y
      · subst hxy
        have hpos : 0 < live.count x := List.count_pos_iff.mpr hy
        rw [List.count_erase_self] at hcount
        simp only [releases, acquires, decide_true, if_true, Bool.false_eq_true, if_false]
        omega
      · rw [List.count_erase_of_ne hxy] at hcount
        simp only [releases, acquires, hxy, decide_false, Bool.false_eq_true, if_false]
        omega
    | quiet kind =>
      rw [step] at hstep
      split_ifs at hstep
      obtain rfl := Option.some.inj hstep
      apply hcount

/-- Each handle is given back as often as it is handed out. -/
theorem Bracketed.released {ts : List (Touch H)} (h : Bracketed ts) (x : H) :
  ts.countP (releases x) = ts.countP (acquires x)
  := by
  have hcount := count_run h x
  simpa using hcount

/-- A handle that is used was handed out more often than given back. -/
theorem acquired_of_use {live : List H} {before after : List (Touch H)} {x : H}
    (h : run [] (before ++ .use x :: after) = some live) :
  before.countP (releases x) < before.countP (acquires x)
  := by
  rw [run_append] at h
  obtain ⟨mid, hbefore, hrest⟩ := Option.bind_eq_some_iff.mp h
  obtain ⟨_, hstep, -⟩ := Option.bind_eq_some_iff.mp hrest
  have hx : x ∈ mid := by
    by_contra hnot
    rw [step, if_neg hnot] at hstep
    cases hstep
  have hcount := count_run hbefore x
  have hpos : 0 < mid.count x := List.count_pos_iff.mpr hx
  rw [List.count_nil] at hcount
  omega

end Lifetime
