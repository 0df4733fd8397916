import Keybench.Skiplist.Refinement

/-!
# Histories of a skiplist

`slRun` performs a sequence of calls on a skiplist and collects what the caller sees.
`Answered` says what a finite map ordered by raw bytes answers to the same calls.  Every
sequence of calls on a newly opened skiplist succeeds and is answered that way, with answers
that depend neither on the heights drawn nor on the seed (`slRun_answered`).
-/

namespace Keybench

/-- A call of one of the operations.  A callback decides on the row it is given and on the
rows it was given before, so it stands for any deterministic callback with a state. -/
inductive SlCall where
  | put (k v : Bytes)
  | get (k : Bytes)
  | del (k : Bytes)
  | range (lo hi : Bytes) (limit : ℤ) (cb : List (Bytes × Bytes) → Bytes → Bytes → ℤ)

/-- What the caller sees: a return code, a return code with a value, or a row count with the
rows the callback was called on. -/
inductive SlAnswer where
  | rc (r : ℤ)
  | value (r : ℤ) (v : Option Bytes)
  | rows (n : ℤ) (called : List (Bytes × Bytes))
deriving DecidableEq

/-- The callback of a range call, remembering the rows it was given. -/
def remember (cb : List (Bytes × Bytes) → Bytes → Bytes → ℤ) :
    RowCallback (List (Bytes × Bytes)) Bytes Bytes :=
  fun seen k v => (cb seen k v, seen ++ [(k, v)])

section Runs

variable {R : Type} (rand : R → ℕ × R) (fuel : ℕ)

/-- One call. -/
def slStep (s : Skiplist R) : SlCall → Option (SlAnswer × Skiplist R)
  | .put k v => do
    let (r, s) ← slPut rand fuel s k v
    some (.rc r, s)
  | .get k => do
    let (r, v) ← slGet fuel s k
    some (.value r v, s)
  | .del k => do
    let (r, s) ← slDel fuel s k
    some (.rc r, s)
  | .range lo hi limit cb => do
    let (n, called) ← slRange fuel s lo hi limit (remember cb) []
    some (.rows n called, s)

/-- A sequence of calls. -/
def slRun (s : Skiplist R) : List SlCall → Option (List SlAnswer)
  | [] => some []
  | call :: calls => do
    let (answer, s) ← slStep rand fuel s call
    let answers ← slRun s calls
    some (answer :: answers)

end Runs

/-- `skiplist_backend_open` on a seed. -/
def skiplistBackendOpen (seed : UInt32) : Skiplist UInt64 :=
  skiplistOpen (skiplistSeed seed)

/-! ## The map a history writes -/

/-- The partial map of keys to values after a call. -/
def SlCall.effect (c : Bytes → Option Bytes) : SlCall → Bytes → Option Bytes
  | .put k v => Function.update c k (some v)
  | .del k => Function.update c k none
  | .get _ => c
  | .range _ _ _ _ => c

/-- What a map ordered by raw bytes answers to a call.  A range call runs over the entries
of the half-open interval in strictly ascending key order. -/
def Answers (c : Bytes → Option Bytes) : SlCall → SlAnswer → Prop
  | .put _ _, answer => answer = .rc 0
  | .get k, answer =>
    answer = match c k with
      | some v => .value 1 (some v)
      | none => .value 0 none
  | .del k, answer => answer = .rc (if (c k).isSome then 1 else 0)
  | .range lo hi limit cb, answer =>
    ∃ rows : List (Bytes × Bytes), rows.Pairwise (fun e f => e.1 < f.1) ∧
      (∀ k v, (k, v) ∈ rows ↔ c k = some v ∧ lo ≤ k ∧ k < hi) ∧
      answer = .rows (scan (remember cb) (leading limit rows) []).passed
        (scan (remember cb) (leading limit rows) []).state

/-- The answers to a sequence of calls from the map `c` on. -/
def Answered (c : Bytes → Option Bytes) : List SlCall → List SlAnswer → Prop
  | [], answers => answers = []
  | call :: calls, answers => ∃ answer rest, answers = answer :: rest ∧ Answers c call answer ∧
      Answered (call.effect c) calls rest

/-- The ordered map after a call. -/
def SlCall.apply (m : Contents) : SlCall → Contents
  | .put k v => m.insert k v
  | .del k => m.erase k
  | .get _ => m
  | .range _ _ _ _ => m

/-- The map of an ordered map after a call. -/
theorem SlCall.lookup_apply (m : Contents) (call : SlCall) :
  (call.apply m).lookup = call.effect m.lookup
  := by
  funext k
  cases call with
  | put k' v =>
    simp only [apply, effect, OrderedMap.lookup_insert, Function.update_apply]
    congr
  | del k' =>
    simp only [apply, effect, OrderedMap.lookup_erase, Function.update_apply]
    congr
  | get k' => rfl
  | range lo hi limit cb => rfl

/-- A call adds at most one entry. -/
theorem SlCall.length_apply_le (m : Contents) (call : SlCall) :
  (call.apply m).entries.length ≤ m.entries.length + 1
  := by
  cases call with
  | put k v => apply OrderedMap.length_insert_le
  | del k => apply (m.length_erase_le k).trans (Nat.le_succ _)
  | get k => apply Nat.le_succ
  | range lo hi limit cb => apply Nat.le_succ

/-! ## Runs -/

/-- The height drawn by the source's generator is from `1` to `slMaxLevel`. -/
theorem randLevel_height (rng : UInt64) :
  0 < (randLevel rng).1 ∧ (randLevel rng).1 ≤ slMaxLevel
  := by
  have hclimb : ∀ n lvl x, lvl ≤ randClimb n lvl x ∧ randClimb n lvl x ≤ lvl + n := by
    intro n
    induction n with
    | zero =>
      intro lvl x
      simp [randClimb]
    | succ n ih =>
      intro lvl x
      have h := ih (lvl + 1) (x / slP)
      simp only [randClimb]
      split <;> omega
  have h := hclimb (slMaxLevel - 1) 1
  simp only [randLevel]
  simp only [slMaxLevel] at h ⊢
  constructor
  · apply (h _).1
  · apply (h _).2

/-- A call on a skiplist that holds a map is answered as by that map, with the same answer
whatever the skiplist, and leaves a skiplist that holds the map after the call. -/
theorem slStep_spec (m : Contents) (call : SlCall) :
  ∃ answer, Answers m.lookup call answer ∧
    ∀ {R : Type} {rand : R → ℕ × R} {s : Skiplist R} {fuel : ℕ},
      (∀ r, 0 < (rand r).1 ∧ (rand r).1 ≤ slMaxLevel) → SlHolds s m →
      m.entries.length + 1 < fuel →
      ∃ s', slStep rand fuel s call = some (answer, s') ∧ SlHolds s' (call.apply m)
  := by
  cases call with
  | put k v =>
    use .rc 0, rfl
    intro R rand s fuel hrand h hfuel
    obtain ⟨s', hrun, h'⟩ := slPut_spec h hrand k v hfuel
    use s'
    simp only [slStep, hrun, Option.bind_eq_bind, Option.bind_some]
    exact ⟨trivial, h'⟩
  | get k =>
    use match m.lookup k with
      | some v => .value 1 (some v)
      | none => .value 0 none
    use rfl
    intro R rand s fuel _ h hfuel
    have hrun := slGet_spec h k hfuel
    use s
    simp only [slStep, hrun, Option.bind_eq_bind, Option.bind_some]
    constructor
    · cases m.lookup k with
      | some v => rfl
      | none => rfl
    · apply h
  | del k =>
    use .rc (if (m.lookup k).isSome then 1 else 0), rfl
    intro R rand s fuel _ h hfuel
    obtain ⟨s', hrun, h'⟩ := slDel_spec h k hfuel
    use s'
    simp only [slStep, hrun, Option.bind_eq_bind, Option.bind_some]
    exact ⟨trivial, h'⟩
  | range lo hi limit cb =>
    use .rows (scan (remember cb) (leading limit (m.slice lo hi)) []).passed
      (scan (remember cb) (leading limit (m.slice lo hi)) []).state
    constructor
    · use m.slice lo hi, m.slice_sorted lo hi
      exact ⟨fun k v => m.mem_slice lo hi k v, rfl⟩
    · intro R rand s fuel _ h hfuel
      have hrun := slRange_spec h lo hi limit (remember cb) [] hfuel
      use s
      simp only [slStep, hrun, Option.bind_eq_bind, Option.bind_some]
      exact ⟨trivial, h⟩

/-- A run from a skiplist that holds a map is answered as by that map. -/
theorem slRun_spec (m : Contents) (calls : List SlCall) :
  ∃ answers, Answered m.lookup calls answers ∧
    ∀ {R : Type} {rand : R → ℕ × R} {s : Skiplist R} {fuel : ℕ},
      (∀ r, 0 < (rand r).1 ∧ (rand r).1 ≤ slMaxLevel) → SlHolds s m →
      m.entries.length + calls.length < fuel → slRun rand fuel s calls = some answers
  := by
  induction calls generalizing m with
  | nil =>
    use [], rfl
    intro R rand s fuel _ _ _
    rfl
  | cons call calls ih =>
    obtain ⟨answer, hanswer, hstep⟩ := slStep_spec m call
    obtain ⟨answers, hanswers, hrest⟩ := ih (call.apply m)
    use answer :: answers
    constructor
    · use answer, answers, rfl, hanswer
      rw [← call.lookup_apply]
      apply hanswers
    · intro R rand s fuel hrand h hfuel
      have hlen := call.length_apply_le m
      simp only [List.length_cons] at hfuel
      obtain ⟨s', hrun, h'⟩ := hstep hrand h (show m.entries.length + 1 < fuel by omega)
      have hrun' := hrest hrand h'
        (show (call.apply m).entries.length + calls.length < fuel by omega)
      simp only [slRun, hrun, hrun', Option.bind_eq_bind, Option.bind_some]

/-- Every sequence of calls on a newly opened skiplist is answered as by a finite map ordered
by raw bytes: the answers are the same for every generator that draws heights from `1` to
`slMaxLevel`, and for the source's generator on every seed. -/
theorem slRun_answered (calls : List SlCall) :
  ∃ answers, Answered (fun _ => none) calls answers ∧
    (∀ (R : Type) (rand : R → ℕ × R) (rng : R) (fuel : ℕ),
      (∀ r, 0 < (rand r).1 ∧ (rand r).1 ≤ slMaxLevel) → calls.length < fuel →
      slRun rand fuel (skiplistOpen rng) calls = some answers) ∧
    ∀ (seed : UInt32) (fuel : ℕ), calls.length < fuel →
      slRun randLevel fuel (skiplistBackendOpen seed) calls = some answers
  := by
  obtain ⟨answers, hanswers, hrun⟩ := slRun_spec OrderedMap.empty calls
  have hempty : (OrderedMap.empty : Contents).entries.length + calls.length = calls.length :=
    Nat.zero_add _
  use answers
  and_intros
  · apply hanswers
  · intro R rand rng fuel hrand hfuel
    apply hrun hrand (SlHolds.open rng)
    rw [hempty]
    apply hfuel
  · intro seed fuel hfuel
    apply hrun randLevel_height (SlHolds.open (skiplistSeed seed))
    rw [hempty]
    apply hfuel

/-- A put, an overwrite, a get, a delete and a range on the source's generator with seed
one. -/
theorem slRun_answered_example :
  ∃ answers, slRun randLevel 6 (skiplistBackendOpen 1)
      [.put [2] [7], .put [2] [8], .get [2], .range [] [3] 0 (fun _ _ _ => 0), .del [2]]
      = some answers ∧
    Answered (fun _ => none)
      [.put [2] [7], .put [2] [8], .get [2], .range [] [3] 0 (fun _ _ _ => 0), .del [2]] answers
  := by
  obtain ⟨answers, hanswers, -, hrun⟩ := slRun_answered
    [.put [2] [7], .put [2] [8], .get [2], .range [] [3] 0 (fun _ _ _ => 0), .del [2]]
  use answers
  exact ⟨hrun 1 6 (by decide), hanswers⟩

end Keybench
