import Keybench.Lib.Lifetime
import Keybench.Run.GridTrace

/-!
# The stores of a run

In every mode and with every pattern of failures, a store that is opened is closed once and is not
used afterwards, and no two stores are open at one time.  In the default mode a timed phase has a
store that was opened and seeded for it alone (`runFile_stores`).
-/

namespace Keybench

open Lifetime

variable {H : Type}

/-- How an event touches the stores.  A store is opened only when none is open. -/
def GridEvent.touches : GridEvent H → List (Touch H)
  | .opened h _ => [.quiet (fun _ => true), .acquire h]
  | .script h _ => [.use h]
  | .seeded h _ _ => [.use h]
  | .timed h _ => [.use h]
  | .closed h => [.release h]
  | .setup _ _ => []
  | .measured _ _ _ => []
  | .summarized _ _ _ => []

/-- How the events of a trace touch the stores. -/
def storeTouches (es : List (GridEvent H)) : List (Touch H) := es.flatMap GridEvent.touches

theorem storeTouches_append (es fs : List (GridEvent H)) :
  storeTouches (es ++ fs) = storeTouches es ++ storeTouches fs
  := List.flatMap_append

section Live

variable [DecidableEq H]

/-- Some events go from the open stores `live` to the open stores `live'`. -/
def Leads (live live' : List H) (es : List (GridEvent H)) : Prop :=
  run live (storeTouches es) = some live'

/-- Events after others. -/
theorem Leads.append {live live₁ live₂ : List H} {es fs : List (GridEvent H)}
    (h₁ : Leads live live₁ es) (h₂ : Leads live₁ live₂ fs) :
  Leads live live₂ (es ++ fs)
  := by
  rw [Leads, storeTouches_append, run_append_of h₁]
  apply h₂

/-- A setup opens the store that it gives, and closes it when it gives none. -/
theorem SetupEvents.leads {cfg : PointConfig} {es : List (GridEvent H)} {store : Option H}
    (h : SetupEvents cfg es store) :
  Leads [] store.toList es
  := by
  cases h <;> simp [Leads, storeTouches, GridEvent.touches, run, step]

/-- A repeat with a store of its own closes it. -/
theorem FreshRepeat.leads {cfg : PointConfig} {c : Cell} {r : ℕ} {es : List (GridEvent H)}
    {R : PointResult} (h : FreshRepeat cfg c r es R) :
  Leads [] [] es
  := by
  cases h with
  | refused hsetup hok =>
    apply hsetup.leads.append
    rfl
  | ran hsetup =>
    apply hsetup.leads.append
    simp [Leads, storeTouches, GridEvent.touches, run, step]

/-- A repeat on a store that is shared leaves it open. -/
theorem SharedRepeat.leads {h : H} {cfg : PointConfig} {c : Cell} {r : ℕ} {es : List (GridEvent H)}
    {R : PointResult} (hran : SharedRepeat h cfg c r es R) :
  Leads [h] [h] es
  := by
  cases hran
  simp [Leads, storeTouches, GridEvent.touches, run, step]

/-- Repeats that leave the stores as they are do so together. -/
theorem Repeats.leads {live : List H} {Rep : ℕ → List (GridEvent H) → PointResult → Prop}
    (hrep : ∀ r es R, Rep r es R → Leads live live es) {n r : ℕ} {es : List (GridEvent H)}
    {Rs : List PointResult} (h : Repeats Rep n r es Rs) :
  Leads live live es
  := by
  induction h with
  | done => rfl
  | failed hR _ => apply hrep _ _ _ hR
  | more hR _ _ ih => apply (hrep _ _ _ hR).append ih

/-- A cell leaves the stores as its repeats do. -/
theorem CellEvents.leads {live : List H} {job : GridJob} {c : Cell}
    {Rep : PointConfig → Cell → ℕ → List (GridEvent H) → PointResult → Prop}
    (hrep : ∀ cfg c r es R, Rep cfg c r es R → Leads live live es) {es : List (GridEvent H)}
    (h : CellEvents job Rep c es) :
  Leads live live es
  := by
  cases h with
  | summarized name hreps hok =>
    apply (hreps.leads (hrep _ _)).append
    rfl
  | failed hreps hok => apply hreps.leads (hrep _ _)

/-- Blocks that leave the stores as they are do so together. -/
theorem leads_flatten {α : Type} {P : α → List (GridEvent H) → Prop} {live : List H} {xs : List α}
    {blocks : List (List (GridEvent H))} (h : List.Forall₂ P xs blocks)
    (hP : ∀ x b, P x b → Leads live live b) :
  Leads live live blocks.flatten
  := Blocks.flatten_induct h rfl (fun _ _ h₁ h₂ => h₁.append h₂) fun x _ b hb => hP x b hb

/-- A group closes the store that was seeded for it. -/
theorem GroupEvents.leads {job : GridJob} {cfg : PointConfig} {g : SeedGroup} {cells : List Cell}
    {es : List (GridEvent H)} (h : GroupEvents job cfg g cells es) :
  Leads [] [] es
  := by
  cases h with
  | refused hsetup =>
    apply hsetup.leads.append
    rfl
  | @ran es h blocks hsetup hcells =>
    have hblocks : Leads [h] [h] blocks.flatten := by
      apply leads_flatten hcells
      intro c b hb
      apply hb.leads
      intro cfg c r es R hran
      apply hran.leads
    have hclosed : Leads [h] [] [.closed h] := by
      simp [Leads, storeTouches, GridEvent.touches, run, step]
    apply hsetup.leads.append
    apply hblocks.append hclosed

/-- An engine leaves no store open. -/
theorem EngineEvents.leads {job : GridJob} {ei : ℕ} {es : List (GridEvent H)}
    (h : EngineEvents job ei es) :
  Leads [] [] es
  := by
  cases h with
  | perEngine hmode hgroup => apply hgroup.leads
  | perValue hmode hgroups =>
    apply leads_flatten hgroups
    intro si b hb
    apply hb.leads
  | fresh hmode hcells =>
    apply leads_flatten hcells
    intro c b hb
    apply hb.leads
    intro cfg c r es R hran
    apply hran.leads

/-- The stores of a run are touched between their opening and their closing, one at a time. -/
theorem runFile_bracketed {W : Type} (env : GridEnv W H) (job : GridJob) (w : W)
    (results : ℕ → PointResult) :
  Bracketed (storeTouches (runFile env job w results).trace)
  := by
  obtain ⟨blocks, hengines, htrace, -⟩ := runFile_events env job w results
  rw [htrace]
  apply leads_flatten hengines
  intro ei b hb
  apply hb.leads

end Live

/-! ## The default mode -/

/-- Whether an event is a timed phase. -/
def GridEvent.isTimed : GridEvent H → Bool
  | .timed _ _ => true
  | _ => false

/-- Each timed phase of a trace is that of a cell, and comes right after the setup of its store and
right before the store is closed. -/
def OwnStores (job : GridJob) (es : List (GridEvent H)) : Prop :=
  ∀ before after h cfg, es = before ++ .timed h cfg :: after →
    ∃ before' setup c r R after', before = before' ++ setup ∧ SetupEvents cfg setup (some h) ∧
      cfg = job.cellConfig c ∧ after = .measured c r R :: .closed h :: after'

/-- Events without a timed phase. -/
theorem OwnStores.of_not_timed {job : GridJob} {es : List (GridEvent H)}
    (hes : ∀ e ∈ es, e.isTimed = false) :
  OwnStores job es
  := by
  rintro before after h cfg rfl
  have htimed := hes (.timed h cfg) (by simp)
  cases htimed

theorem OwnStores.append {job : GridJob} {es fs : List (GridEvent H)} (h₁ : OwnStores job es)
    (h₂ : OwnStores job fs) :
  OwnStores job (es ++ fs)
  := by
  intro before after h cfg heq
  have hlater : ∀ mid, before = es ++ mid → fs = mid ++ .timed h cfg :: after →
      ∃ before' setup c r R after', before = before' ++ setup ∧ SetupEvents cfg setup (some h) ∧
        cfg = job.cellConfig c ∧ after = .measured c r R :: .closed h :: after' := by
    rintro mid rfl hfs
    obtain ⟨before', setup, c, r, R, after', rfl, hsetup, hcfg, hafter⟩ := h₂ mid after h cfg hfs
    exact ⟨es ++ before', setup, c, r, R, after', (List.append_assoc _ _ _).symm, hsetup, hcfg,
      hafter⟩
  rcases List.append_eq_append_iff.mp heq with ⟨mid, hbefore, hfs⟩ | ⟨mid, hes, hmid⟩
  · apply hlater mid hbefore hfs
  · cases mid with
    | nil => exact hlater [] (by rw [hes, List.append_nil, List.append_nil]) hmid.symm
    | cons e mid =>
      obtain ⟨rfl, rfl⟩ := List.cons.inj hmid
      obtain ⟨before', setup, c, r, R, after', hbefore, hsetup, hcfg, rfl⟩ :=
        h₁ before mid h cfg hes
      exact ⟨before', setup, c, r, R, after' ++ fs, hbefore, hsetup, hcfg, rfl⟩

/-- A setup runs no timed phase. -/
theorem SetupEvents.not_timed {cfg : PointConfig} {es : List (GridEvent H)} {store : Option H}
    (h : SetupEvents cfg es store) :
  ∀ e ∈ es, e.isTimed = false
  := by
  cases h <;> simp [GridEvent.isTimed]

/-- A repeat with a store of its own runs its timed phase on it. -/
theorem FreshRepeat.ownStores {job : GridJob} {c : Cell} {r : ℕ} {es : List (GridEvent H)}
    {R : PointResult} (h : FreshRepeat (job.cellConfig c) c r es R) :
  OwnStores job es
  := by
  cases h with
  | @refused es _ hsetup hok =>
    apply OwnStores.of_not_timed
    intro e he
    rcases List.mem_append.mp he with he | he
    · apply hsetup.not_timed e he
    · obtain rfl := List.mem_singleton.mp he
      rfl
  | @ran es h _ hsetup =>
    intro before after h' cfg heq
    -- The timed phase is in none of the events of the setup, so it is the one after them.
    have hnot : ∀ mid, es ≠ before ++ .timed h' cfg :: mid := by
      rintro mid rfl
      have htimed := hsetup.not_timed (.timed h' cfg) (by simp)
      cases htimed
    have hrest : before = es ∧ .timed h' cfg :: after
        = [.timed h (job.cellConfig c), .measured c r R, .closed h] := by
      rcases List.append_eq_append_iff.mp heq with ⟨mid, hbefore, hmid⟩ | ⟨mid, hes, hmid⟩
      · cases mid with
        | nil => exact ⟨by rw [hbefore, List.append_nil], hmid.symm⟩
        | cons e mid =>
          have htimed : .timed h' cfg ∈ [.measured c r R, GridEvent.closed h] := by
            rw [(List.cons.inj hmid).2]
            simp
          simp at htimed
      · cases mid with
        | nil => exact ⟨by rw [hes, List.append_nil], hmid⟩
        | cons e mid =>
          obtain ⟨rfl, -⟩ := List.cons.inj hmid
          apply absurd hes (hnot mid)
    obtain ⟨rfl, hafter⟩ := hrest
    cases hafter
    exact ⟨[], before, c, r, R, [], rfl, hsetup, rfl, rfl⟩

/-- The repeats of a cell with stores of their own. -/
theorem Repeats.ownStores {job : GridJob} {c : Cell} {n r : ℕ} {es : List (GridEvent H)}
    {Rs : List PointResult} (h : Repeats (FreshRepeat (job.cellConfig c) c) n r es Rs) :
  OwnStores job es
  := by
  induction h with
  | done => apply OwnStores.of_not_timed (List.forall_mem_nil _)
  | failed hR _ => apply hR.ownStores
  | more hR _ _ ih => apply hR.ownStores.append ih

/-- A cell in the default mode. -/
theorem CellEvents.ownStores {job : GridJob} {c : Cell} {es : List (GridEvent H)}
    (h : CellEvents job FreshRepeat c es) :
  OwnStores job es
  := by
  cases h with
  | summarized name hreps hok =>
    apply hreps.ownStores.append
    apply OwnStores.of_not_timed
    intro e he
    obtain rfl := List.mem_singleton.mp he
    rfl
  | failed hreps hok => apply hreps.ownStores

/-- In the default mode each timed phase has a store of its own. -/
theorem runFile_ownStores {W : Type} (env : GridEnv W H) {job : GridJob} (hmode : job.mode = .fresh)
    (w : W) (results : ℕ → PointResult) :
  OwnStores job (runFile env job w results).trace
  := by
  have hnil : OwnStores job ([] : List (GridEvent H)) :=
    OwnStores.of_not_timed (List.forall_mem_nil _)
  have happend : ∀ es fs : List (GridEvent H), OwnStores job es → OwnStores job fs →
      OwnStores job (es ++ fs) := fun _ _ h₁ h₂ => h₁.append h₂
  obtain ⟨blocks, hengines, htrace, -⟩ := runFile_events env job w results
  rw [htrace]
  apply Blocks.flatten_induct hengines hnil happend
  intro ei _ b hb
  cases hb with
  | perEngine hmode' _ =>
    rw [hmode] at hmode'
    cases hmode'
  | perValue hmode' _ =>
    rw [hmode] at hmode'
    cases hmode'
  | fresh _ hcells =>
    apply Blocks.flatten_induct hcells hnil happend
    intro c _ b hb
    apply hb.ownStores

/-! ## Runs -/

/-- In each mode and with each pattern of failures, the stores of a run are touched only between
their opening and their closing, none is opened while another is open, and each is closed as often
as it is opened.  In the default mode each timed phase comes right after the opening and the seeding
of its store, for the configuration of its cell, and right before the closing of it. -/
theorem runFile_stores [DecidableEq H] {W : Type} (env : GridEnv W H) (job : GridJob) (w : W)
    (results : ℕ → PointResult) :
  Bracketed (storeTouches (runFile env job w results).trace) ∧
    (∀ h, (storeTouches (runFile env job w results).trace).countP (releases h)
      = (storeTouches (runFile env job w results).trace).countP (acquires h)) ∧
    (job.mode = .fresh → OwnStores job (runFile env job w results).trace)
  := by
  have hbracketed := runFile_bracketed env job w results
  exact ⟨hbracketed, hbracketed.released, fun hmode => runFile_ownStores env hmode w results⟩

end Keybench
