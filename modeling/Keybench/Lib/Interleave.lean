import Mathlib.Algebra.BigOperators.Fin
import Mathlib.Logic.Function.Basic

/-!
# Interleavings

Processes of one kind, each with a state of its own, take their steps in any order.  A run of all
of them is a run of each on its own events (`run_stepAt_iff`), so that what holds of every run of
one process holds of each process in every interleaving.  A process that can always take another
step has an endless run (`exists_endless`).
-/

namespace Interleave

variable {ι σ ε : Type*}

/-! ## One process -/

section Run

variable (step : σ → ε → Option σ)

/-- The state after some events, or `none` when one of them cannot happen. -/
def run : σ → List ε → Option σ
  | s, [] => some s
  | s, e :: es => (step s e).bind fun s => run s es

variable {step}

/-- Events after others. -/
theorem run_append (s : σ) (es fs : List ε) :
  run step s (es ++ fs) = (run step s es).bind fun s => run step s fs
  := by
  induction es generalizing s with
  | nil => rfl
  | cons e es ih =>
    rw [List.cons_append, run, run]
    cases step s e with
    | none => rfl
    | some s' => apply ih

/-- What holds at the start and is kept by each step holds after every run. -/
theorem run_induct {P : List ε → σ → Prop} {s s' : σ} {es : List ε} (hrun : run step s es = some s')
    (hstart : P [] s)
    (hstep : ∀ es s e s', P es s → step s e = some s' → P (es ++ [e]) s') :
  P es s'
  := by
  have hgo : ∀ (rest done : List ε) (s : σ), P done s → run step s rest = some s' →
      P (done ++ rest) s' := by
    intro rest
    induction rest with
    | nil =>
      intro done s hdone hrest
      obtain rfl := Option.some.inj hrest
      rw [List.append_nil]
      apply hdone
    | cons e rest ih =>
      intro done s hdone hrest
      obtain ⟨s₁, hs₁, hrest⟩ := Option.bind_eq_some_iff.mp hrest
      have hall := ih (done ++ [e]) s₁ (hstep done s e s₁ hdone hs₁) hrest
      rw [List.append_assoc] at hall
      apply hall
  apply hgo es [] s hstart hrun

/-- Systems whose steps go along with each other on related states have runs that do. -/
theorem run_related {σ' : Type*} {step' : σ' → ε → Option σ'} {r : σ → σ' → Prop}
    (hstep : ∀ s s' e, r s s' → Option.Rel r (step s e) (step' s' e)) {s : σ} {s' : σ'}
    (h : r s s') (es : List ε) :
  Option.Rel r (run step s es) (run step' s' es)
  := by
  induction es generalizing s s' with
  | nil => exact .some h
  | cons e es ih =>
    have hnext := hstep s s' e h
    rw [run, run]
    generalize step s e = x at hnext ⊢
    generalize step' s' e = x' at hnext ⊢
    cases hnext with
    | none => exact .none
    | some h' => apply ih h'

/-! ## Shared state -/

/-- Processes that share a state.  What a process needs of its own state and of the shared one may
be stated of both, when its own steps keep it and the changes `R` that the others make to the shared
state do not harm it. -/
theorem run_rely [DecidableEq ι] {τ ρ : Type*} {step : σ → ι → Option σ} (shared : σ → τ)
    (proc : σ → ι → ρ) {I : τ → Prop} {J : ι → τ → ρ → Prop} {R : τ → τ → Prop}
    (hframe : ∀ s t s', step s t = some s' → ∀ u ≠ t, proc s' u = proc s u)
    (hstep : ∀ s t s', I (shared s) → J t (shared s) (proc s t) → step s t = some s' →
      I (shared s') ∧ J t (shared s') (proc s' t) ∧ R (shared s) (shared s'))
    (hstable : ∀ t x x' y, R x x' → J t x y → J t x' y) {s s' : σ} {ts : List ι}
    (hrun : run step s ts = some s') (hI : I (shared s)) (hJ : ∀ t, J t (shared s) (proc s t)) :
  I (shared s') ∧ ∀ t, J t (shared s') (proc s' t)
  := by
  refine run_induct (P := fun _ s => I (shared s) ∧ ∀ t, J t (shared s) (proc s t)) hrun
    ⟨hI, hJ⟩ ?_
  rintro _ s t s' ⟨hI, hJ⟩ hnext
  obtain ⟨hI', hJ', hR⟩ := hstep s t s' hI (hJ t) hnext
  use hI'
  intro u
  rcases eq_or_ne u t with rfl | hne
  · apply hJ'
  · rw [hframe s t s' hnext u hne]
    apply hstable _ _ _ _ hR (hJ u)

/-! ## Endless runs -/

variable (step)

/-- An endless run from a state. -/
structure Endless (s : σ) (states : ℕ → σ) (events : ℕ → ε) : Prop where
  start : states 0 = s
  next : ∀ k, step (states k) (events k) = some (states (k + 1))

variable {step}

/-- No state of an endless run is one where nothing can happen. -/
theorem Endless.not_stuck {s : σ} {states : ℕ → σ} {events : ℕ → ε}
    (h : Endless step s states events) (k : ℕ) :
  ¬ ∀ e, step (states k) e = none
  := by
  intro hstuck
  have hnext := h.next k
  rw [hstuck] at hnext
  cases hnext

/-- When a step can be taken in each state of some kind and leads to such a state again, there is an
endless run through such states. -/
theorem exists_endless {P : σ → Prop} {s : σ} (hs : P s) (next : σ → ε)
    (hstep : ∀ s, P s → ∃ s', step s (next s) = some s' ∧ P s') :
  ∃ states : ℕ → σ, Endless step s states (fun k => next (states k)) ∧ ∀ k, P (states k)
  := by
  let go : ℕ → σ := fun k => (fun s => (step s (next s)).getD s)^[k] s
  have hgo : ∀ k, go (k + 1) = (step (go k) (next (go k))).getD (go k) :=
    fun k => Function.iterate_succ_apply' _ k s
  have hP : ∀ k, P (go k) := by
    intro k
    induction k with
    | zero => apply hs
    | succ k ih =>
      obtain ⟨s', hs', hP'⟩ := hstep (go k) ih
      rw [hgo, hs']
      apply hP'
  use go
  constructor
  · constructor
    case start => rfl
    case next =>
      intro k
      obtain ⟨s', hs', -⟩ := hstep (go k) (hP k)
      rw [hgo, hs']
      rfl
  · apply hP

end Run

/-! ## Many processes -/

section Processes

variable [DecidableEq ι] (step : σ → ε → Option σ)

/-- A process takes a step. -/
def stepAt (ss : ι → σ) (x : ι × ε) : Option (ι → σ) :=
  (step (ss x.1) x.2).map (Function.update ss x.1)

/-- The events of a process. -/
def own (t : ι) (es : List (ι × ε)) : List ε :=
  es.filterMap fun x => if x.1 = t then some x.2 else none

variable {step}

theorem own_cons_self (t : ι) (e : ε) (es : List (ι × ε)) :
  own t ((t, e) :: es) = e :: own t es
  := by
  simp [own]

theorem own_cons_of_ne {t u : ι} (h : u ≠ t) (e : ε) (es : List (ι × ε)) :
  own t ((u, e) :: es) = own t es
  := by
  simp [own, h]

/-- A run of all processes is a run of each of them. -/
theorem run_stepAt_iff (ss ss' : ι → σ) (es : List (ι × ε)) :
  run (stepAt step) ss es = some ss' ↔ ∀ t, run step (ss t) (own t es) = some (ss' t)
  := by
  induction es generalizing ss with
  | nil =>
    change some ss = some ss' ↔ ∀ t, some (ss t) = some (ss' t)
    simp only [Option.some.injEq, funext_iff]
  | cons x es ih =>
    obtain ⟨u, e⟩ := x
    rw [run, stepAt]
    cases hstep : step (ss u) e with
    | none =>
      constructor
      · rintro ⟨⟩
      · intro hall
        have hu := hall u
        rw [own_cons_self, run, hstep] at hu
        cases hu
    | some s' =>
      rw [Option.map_some, Option.bind_some, ih]
      apply forall_congr'
      intro t
      rcases eq_or_ne u t with rfl | h
      · rw [own_cons_self, run, hstep, Function.update_self, Option.bind_some]
      · rw [own_cons_of_ne h, Function.update_of_ne h.symm]

/-- The events of some kind are those of the processes together. -/
theorem sum_countP_own {n : ℕ} (p : ε → Bool) (es : List (Fin n × ε)) :
  ((List.finRange n).map fun t => (own t es).countP p).sum = es.countP fun x => p x.2
  := by
  rw [← Fin.sum_univ_def]
  induction es with
  | nil => simp [own]
  | cons x es ih =>
    obtain ⟨u, e⟩ := x
    have hown : ∀ t, (own t ((u, e) :: es)).countP p
        = (own t es).countP p + if t = u then (if p e then 1 else 0) else 0 := by
      intro t
      rcases eq_or_ne t u with rfl | h
      · rw [own_cons_self, List.countP_cons, if_pos rfl]
      · rw [own_cons_of_ne h.symm, if_neg h, Nat.add_zero]
    rw [List.countP_cons, ← ih, Finset.sum_congr rfl fun t _ => hown t, Finset.sum_add_distrib,
      Finset.sum_ite_eq' Finset.univ u, if_pos (Finset.mem_univ u)]

/-- An event of a process is an event. -/
theorem mem_own {t : ι} {e : ε} {es : List (ι × ε)} :
  e ∈ own t es ↔ (t, e) ∈ es
  := by
  simp only [own, List.mem_filterMap, Option.ite_none_right_eq_some, Option.some.injEq]
  constructor
  · rintro ⟨x, hx, rfl, rfl⟩
    apply hx
  · intro h
    exact ⟨(t, e), h, rfl, rfl⟩

/-- The events are those of the processes. -/
theorem mem_map_snd {e : ε} {es : List (ι × ε)} :
  e ∈ es.map Prod.snd ↔ ∃ t, e ∈ own t es
  := by
  simp only [mem_own, List.mem_map, Prod.exists, exists_eq_right]

theorem own_append (t : ι) (es fs : List (ι × ε)) :
  own t (es ++ fs) = own t es ++ own t fs
  := List.filterMap_append

/-- The own parts of events that are made of parts. -/
theorem own_flatMap {ε' : Type*} (f : ε → List ε') (t : ι) (es : List (ι × ε)) :
  own t (es.flatMap fun x => (f x.2).map fun e => (x.1, e)) = (own t es).flatMap f
  := by
  induction es with
  | nil => rfl
  | cons x es ih =>
    obtain ⟨u, e⟩ := x
    rw [List.flatMap_cons, own_append, ih]
    rcases eq_or_ne u t with rfl | h
    · rw [own_cons_self, List.flatMap_cons]
      simp [own, List.filterMap_map]
    · rw [own_cons_of_ne h]
      simp [own, List.filterMap_map, h]

/-- Processes can take their steps one process after the other. -/
theorem exists_own {n : ℕ} (f : Fin n → List ε) :
  ∃ es : List (Fin n × ε), ∀ t, own t es = f t
  := by
  have hself : ∀ (t : Fin n) (es : List ε), own t (es.map fun e => (t, e)) = es := by
    intro t es
    simp [own, List.filterMap_map]
  have hother : ∀ t u : Fin n, u ≠ t → ∀ es : List ε, own t (es.map fun e => (u, e)) = [] := by
    intro t u h es
    simp [own, List.filterMap_map, h]
  have hgo : ∀ us : List (Fin n), us.Nodup → ∀ t,
      own t (us.flatMap fun u => (f u).map fun e => (u, e)) = if t ∈ us then f t else [] := by
    intro us hus t
    induction us with
    | nil => rfl
    | cons u us ih =>
      obtain ⟨hu, hus⟩ := List.nodup_cons.mp hus
      rw [List.flatMap_cons, own_append, ih hus]
      rcases eq_or_ne u t with rfl | h
      · rw [hself, if_neg hu, List.append_nil, if_pos List.mem_cons_self]
      · simp [hother t u h, h.symm]
  use (List.finRange n).flatMap fun u => (f u).map fun e => (u, e)
  intro t
  rw [hgo _ (List.nodup_finRange n), if_pos (List.mem_finRange t)]

end Processes

end Interleave
