import Mathlib.Data.Int.Notation
import Mathlib.Data.List.Basic

/-!
# Bounded scans

`scan cb rows st` calls the stateful callback `cb` on the rows of a list, in order, until
one call returns a nonzero number or the rows are used up.  `leading limit rows` are the
rows a limit allows, all of them when the limit is not positive.  `Passes` says that no call
on the rows returns nonzero.
-/

/-- A callback on rows, with its state. -/
abbrev RowCallback (σ K V : Type*) : Type _ := σ → K → V → ℤ × σ

/-- The outcome of a scan: how many rows the callback let pass, whether it stopped the
scan, and the state it left. -/
structure ScanOutcome (σ : Type*) where
  /-- The rows whose callback returned zero. -/
  passed : ℕ
  /-- Whether a row's callback returned nonzero. -/
  stopped : Bool
  /-- The last state of the callback. -/
  state : σ
deriving DecidableEq

variable {σ K V α : Type*}

/-- Call `cb` on the rows in order until one call returns nonzero. -/
def scan (cb : RowCallback σ K V) : List (K × V) → σ → ScanOutcome σ
  | [], st => ⟨0, false, st⟩
  | (k, v) :: rows, st =>
    let (r, st) := cb st k v
    if r ≠ 0 then ⟨0, true, st⟩
    else
      let out := scan cb rows st
      ⟨out.passed + 1, out.stopped, out.state⟩

/-- The rows the callback was called on. -/
def ScanOutcome.called (out : ScanOutcome σ) : ℕ :=
  out.passed + if out.stopped then 1 else 0

/-- No call on the rows returns nonzero. -/
def Passes (cb : RowCallback σ K V) : List (K × V) → σ → Prop
  | [], _ => True
  | (k, v) :: rows, st => (cb st k v).1 = 0 ∧ Passes cb rows (cb st k v).2

/-- The callback, remembering the rows it is called on. -/
def recording (cb : RowCallback σ K V) : RowCallback (σ × List (K × V)) K V :=
  fun (st, rows) k v => ((cb st k v).1, (cb st k v).2, rows ++ [(k, v)])

/-- The rows a limit allows; a limit that is not positive allows all. -/
def leading (limit : ℤ) (rows : List α) : List α :=
  if limit ≤ 0 then rows else rows.take limit.toNat

/-- The rows a limit still allows after `n` of them. -/
def remaining (limit n : ℤ) (rows : List α) : List α :=
  if limit ≤ 0 then rows else rows.take (limit - n).toNat

theorem leading_eq_remaining (limit : ℤ) (rows : List α) :
  leading limit rows = remaining limit 0 rows
  := by
  simp [leading, remaining]

/-- No row remains once the limit is reached. -/
theorem remaining_of_reached {limit n : ℤ} (h : ¬ (limit ≤ 0 ∨ n < limit)) (rows : List α) :
  remaining limit n rows = []
  := by
  obtain ⟨hpos, hn⟩ := not_or.mp h
  rw [remaining, if_neg hpos, Int.toNat_of_nonpos (by omega), List.take_zero]

/-- Below the limit the next row remains, and then those after it. -/
theorem remaining_cons {limit n : ℤ} (h : limit ≤ 0 ∨ n < limit) (row : α) (rows : List α) :
  remaining limit n (row :: rows) = row :: remaining limit (n + 1) rows
  := by
  by_cases hpos : limit ≤ 0
  · simp [remaining, hpos]
  · have hsucc : (limit - n).toNat = (limit - (n + 1)).toNat + 1 := by omega
    rw [remaining, if_neg hpos, hsucc, List.take_succ_cons, remaining, if_neg hpos]

@[simp]
theorem remaining_nil (limit n : ℤ) :
  remaining limit n ([] : List α) = []
  := by
  simp [remaining]

@[simp]
theorem scan_nil (cb : RowCallback σ K V) (st : σ) :
  scan cb [] st = ⟨0, false, st⟩
  := rfl

/-- A row whose callback returns nonzero ends the scan. -/
theorem scan_cons_stop {cb : RowCallback σ K V} {k : K} {v : V} {st : σ}
    (h : (cb st k v).1 ≠ 0) (rows : List (K × V)) :
  scan cb ((k, v) :: rows) st = ⟨0, true, (cb st k v).2⟩
  := by
  simp [scan, h]

/-- A row whose callback returns zero is passed. -/
theorem scan_cons_pass {cb : RowCallback σ K V} {k : K} {v : V} {st : σ}
    (h : (cb st k v).1 = 0) (rows : List (K × V)) :
  scan cb ((k, v) :: rows) st
    = ⟨(scan cb rows (cb st k v).2).passed + 1, (scan cb rows (cb st k v).2).stopped,
        (scan cb rows (cb st k v).2).state⟩
  := by
  simp [scan, h]

/-- A scan is stopped unless the callback passes all rows. -/
theorem stopped_eq_false_iff (cb : RowCallback σ K V) :
  ∀ (rows : List (K × V)) (st : σ), (scan cb rows st).stopped = false ↔ Passes cb rows st
  | [], _ => by simp [Passes]
  | (k, v) :: rows, st => by
    rw [Passes]
    by_cases h : (cb st k v).1 = 0
    · rw [scan_cons_pass h, stopped_eq_false_iff cb rows]
      simp [h]
    · rw [scan_cons_stop h]
      simp [h]

/-- A callback that passes all rows passes as many as there are. -/
theorem passed_of_passes (cb : RowCallback σ K V) :
  ∀ (rows : List (K × V)) (st : σ), Passes cb rows st → (scan cb rows st).passed = rows.length
  | [], _, _ => rfl
  | (k, v) :: rows, st, h => by
    obtain ⟨hstop, hrest⟩ := h
    rw [scan_cons_pass hstop]
    exact congrArg (· + 1) (passed_of_passes cb rows _ hrest)

/-- The callback is called on the rows it passes exactly when it passes all rows. -/
theorem passed_eq_called_iff (cb : RowCallback σ K V) (rows : List (K × V)) (st : σ) :
  (scan cb rows st).passed = (scan cb rows st).called ↔ Passes cb rows st
  := by
  rw [ScanOutcome.called, ← stopped_eq_false_iff]
  cases (scan cb rows st).stopped <;> simp

/-- Remembering the rows does not change what is passed. -/
theorem passes_recording (cb : RowCallback σ K V) :
  ∀ (rows : List (K × V)) (st : σ) (seen : List (K × V)),
    Passes (recording cb) rows (st, seen) ↔ Passes cb rows st
  | [], _, _ => Iff.rfl
  | (k, v) :: rows, st, seen => by
    rw [Passes, Passes, recording, passes_recording cb rows]

/-- What every call preserves, a scan preserves. -/
theorem scan_state_of_step {P : σ → Prop} {cb : RowCallback σ K V}
    (hcb : ∀ st k v, P st → P (cb st k v).2) :
  ∀ (rows : List (K × V)) (st : σ), P st → P (scan cb rows st).state
  | [], _, h => h
  | (k, v) :: rows, st, h => by
    by_cases hstop : (cb st k v).1 = 0
    · rw [scan_cons_pass hstop]
      apply scan_state_of_step hcb rows _ (hcb st k v h)
    · rw [scan_cons_stop hstop]
      apply hcb st k v h

/-- Callbacks that go along with each other on related states pass the same rows, count as many and
leave related states. -/
theorem scan_related {σ' : Type*} {r : σ → σ' → Prop} {cb : RowCallback σ K V}
    {cb' : RowCallback σ' K V}
    (hcb : ∀ st st' k v, r st st' →
      (cb st k v).1 = (cb' st' k v).1 ∧ r (cb st k v).2 (cb' st' k v).2) :
  ∀ (rows : List (K × V)) (st : σ) (st' : σ'), r st st' →
    (Passes cb rows st ↔ Passes cb' rows st') ∧
      (scan cb rows st).passed = (scan cb' rows st').passed ∧
      r (scan cb rows st).state (scan cb' rows st').state
  | [], _, _, h => ⟨Iff.rfl, rfl, h⟩
  | (k, v) :: rows, st, st', h => by
    obtain ⟨hcode, hnext⟩ := hcb st st' k v h
    obtain ⟨hpasses, hpassed, hstate⟩ := scan_related hcb rows _ _ hnext
    rcases eq_or_ne (cb st k v).1 0 with hstop | hstop
    · rw [Passes, Passes, hpasses, hcode, scan_cons_pass hstop,
        scan_cons_pass (hcode.symm.trans hstop)]
      exact ⟨Iff.rfl, congrArg (· + 1) hpassed, hstate⟩
    · rw [Passes, Passes, hpasses, hcode, scan_cons_stop hstop,
        scan_cons_stop (by rwa [← hcode])]
      exact ⟨Iff.rfl, rfl, hnext⟩
