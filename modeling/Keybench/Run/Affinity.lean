import Keybench.Lib.Ranges
import Keybench.Libc.Numbers
import Mathlib.Data.Int.CardIntervalMod
import Mathlib.Data.List.FinRange

/-!
# Pinning workers to CPUs

`kbAffinityInit` records the CPUs of the inherited mask once, and `kbPinSelf` pins a worker to
one of them.  Worker `t` of a run with `c` CPUs goes to the CPU of the mask that has `t mod c`
CPUs of the mask below it, and the workers are shared out evenly (`pin_spec`).
-/

namespace Keybench

/-- `CPU_SETSIZE`. -/
def cpuSetsize : ℕ := 1024

/-- `cpu_set_t`. -/
abbrev CpuSet : Type := Fin cpuSetsize → Bool

/-- `CPU_COUNT`. -/
def cpuCount (mask : CpuSet) : ℕ := (List.finRange cpuSetsize).countP mask

/-- What `affinity.c` keeps for the run. -/
structure Affinity where
  /-- `kb_enabled`. -/
  enabled : Bool
  /-- The first `kb_ncpus` entries of `kb_cpus`. -/
  cpus : List ℕ
  /-- `kb_desc`. -/
  desc : Bytes
deriving DecidableEq

/-! ## Rendering the set -/

/-- `%d-%d`, or `%d` for a single CPU. -/
def rangeText (r : ℕ × ℕ) : Bytes :=
  if r.2 > r.1 then fmtNat r.1 ++ ascii "-" ++ fmtNat r.2 else fmtNat r.1

/-- What one turn of the loop of `kb_format_set` prints after `out`. -/
def formatRange (out : Bytes) (r : ℕ × ℕ) : Bytes :=
  (if out ≠ [] then ascii "," else []) ++ rangeText r

/-- The loop of `kb_format_set`, on the CPUs that are left and with `out` in the buffer of `n`
bytes. -/
def formatSetLoop (n : ℕ) (out : Bytes) (cpus : List ℕ) : Bytes :=
  match cpus with
  | [] => out
  | c :: cpus =>
    let w := formatRange out (c, (Ranges.runEnd c cpus).1)
    if w.length ≥ n - out.length then out ++ snprintfStr (n - out.length) (ascii "...")
    else formatSetLoop n (out ++ w) (Ranges.runEnd c cpus).2
termination_by cpus.length
decreasing_by
  rw [List.length_cons]
  apply Nat.lt_succ_of_le (Ranges.runEnd_length c cpus)

/-- `kb_format_set`: the string that it leaves in a buffer of `n` bytes. -/
def kbFormatSet (cpus : List ℕ) (n : ℕ) : Bytes := formatSetLoop n [] cpus

/-! ## Enumerating the mask -/

/-- The loop of `kb_affinity_init` over the CPU numbers. -/
def recordCpus (mask : CpuSet) (want : ℕ) : List (Fin cpuSetsize) → List ℕ → List ℕ
  | [], cpus => cpus
  | i :: is, cpus =>
    if cpus.length < want then recordCpus mask want is (if mask i then cpus ++ [i.val] else cpus)
    else cpus

/-- The text that `kb_affinity_init` prints into `kb_desc`. -/
def affinityDesc (enabled : Bool) (cpus : List ℕ) : Bytes :=
  let plural := if cpus.length = 1 then [] else ascii "s"
  let set := kbFormatSet cpus 96
  if enabled then
    ascii "on (" ++ fmtNat cpus.length ++ ascii " cpu" ++ plural ++ ascii ": " ++ set ++ ascii ")"
  else
    ascii "off (" ++ fmtNat cpus.length ++ ascii " cpu" ++ plural ++ ascii " available: " ++ set
      ++ ascii ")"

/-- `kb_affinity_init`, on the mask that `sched_getaffinity` gives.  The number it returns is the
length of `cpus`. -/
def kbAffinityInit (mask : Option CpuSet) (enable : Bool) : Affinity :=
  match mask with
  | none => ⟨false, [], snprintfStr 160 (ascii "unavailable (sched_getaffinity failed)")⟩
  | some mask =>
    let want := cpuCount mask
    let cpus := recordCpus mask want (List.finRange cpuSetsize) []
    let enabled := enable && cpus.length > 0
    ⟨enabled, cpus, snprintfStr 160 (affinityDesc enabled cpus)⟩

/-- The CPU in the set `one` that `kb_pin_self` makes. -/
def pinTarget (a : Affinity) (tid : ℤ) : Option ℕ :=
  if !a.enabled || a.cpus.length ≤ 0 then none
  else
    let ncpus : ℤ := a.cpus.length
    a.cpus[((tid.tmod ncpus + ncpus).tmod ncpus).toNat]?

/-- `kb_pin_self`, when `pthread_setaffinity_np` takes the CPUs that satisfy `takes`. -/
def kbPinSelf (a : Affinity) (takes : ℕ → Bool) (tid : ℤ) : ℤ :=
  match pinTarget a tid with
  | none => -1
  | some cpu => if takes cpu then cpu else -1

/-! ## The recorded CPUs -/

/-- The loop appends the members of the mask until as many as wanted are there. -/
theorem recordCpus_eq (mask : CpuSet) (want : ℕ) (is : List (Fin cpuSetsize)) (cpus : List ℕ)
    (h : cpus.length + is.countP mask = want) :
  recordCpus mask want is cpus = cpus ++ (is.filter mask).map Fin.val
  := by
  induction is generalizing cpus with
  | nil => simp [recordCpus]
  | cons i is ih =>
    rw [recordCpus]
    split_ifs with hlt hi
    · rw [ih, List.filter_cons_of_pos hi, List.map_cons, List.append_assoc, List.singleton_append]
      rw [List.countP_cons_of_pos hi] at h
      rw [List.length_append, List.length_singleton]
      omega
    · rw [ih, List.filter_cons_of_neg hi]
      rw [List.countP_cons_of_neg hi] at h
      apply h
    · -- all members are there, so none is left
      have hnone : (i :: is).countP mask = 0 := by omega
      have hfilter : (i :: is).filter mask = [] := by
        apply List.length_eq_zero_iff.mp
        rw [← List.countP_eq_length_filter]
        apply hnone
      rw [hfilter, List.map_nil, List.append_nil]

/-- The members of a mask, in order. -/
def maskCpus (mask : CpuSet) : List ℕ := ((List.finRange cpuSetsize).filter mask).map Fin.val

/-- `kb_affinity_init` records the members of the mask in order. -/
theorem kbAffinityInit_cpus (mask : CpuSet) (enable : Bool) :
  (kbAffinityInit (some mask) enable).cpus = maskCpus mask
  := by
  have h := recordCpus_eq mask (cpuCount mask) (List.finRange cpuSetsize) []
    (by rw [List.length_nil, Nat.zero_add, cpuCount])
  rw [kbAffinityInit]
  dsimp only
  rw [h, List.nil_append, maskCpus]

/-- There are as many as `CPU_COUNT` says. -/
theorem length_maskCpus (mask : CpuSet) :
  (maskCpus mask).length = cpuCount mask
  := by
  rw [maskCpus, List.length_map, cpuCount, List.countP_eq_length_filter]

/-- The recorded CPUs are in increasing order. -/
theorem maskCpus_sorted (mask : CpuSet) :
  (maskCpus mask).Pairwise (· < ·)
  := by
  apply List.Pairwise.map Fin.val (fun a b hab => hab)
  apply (List.pairwise_lt_finRange cpuSetsize).filter

/-- The recorded CPUs are those of the mask. -/
theorem mem_maskCpus {mask : CpuSet} {x : ℕ} :
  x ∈ maskCpus mask ↔ ∃ cpu, mask cpu = true ∧ cpu.val = x
  := by
  rw [maskCpus, List.mem_map]
  constructor
  · rintro ⟨cpu, hcpu, rfl⟩
    exact ⟨cpu, (List.mem_filter.mp hcpu).2, rfl⟩
  · rintro ⟨cpu, hcpu, rfl⟩
    exact ⟨cpu, List.mem_filter.mpr ⟨List.mem_finRange cpu, hcpu⟩, rfl⟩

/-- The entry of a strictly increasing list at a position has that many entries below it. -/
theorem countP_lt_getElem {l : List ℕ} (hl : l.Pairwise (· < ·)) {i : ℕ} (hi : i < l.length) :
  l.countP (fun x => decide (x < l[i])) = i
  := by
  induction l generalizing i with
  | nil => cases hi
  | cons a l ih =>
    obtain ⟨ha, hl⟩ := List.pairwise_cons.mp hl
    cases i with
    | zero =>
      rw [List.countP_eq_zero]
      intro x hx
      rcases List.mem_cons.mp hx with rfl | hx
      · simp
      · have hlt := ha x hx
        simp only [List.getElem_cons_zero, decide_eq_true_eq]
        omega
    | succ i =>
      have hi' : i < l.length := Nat.lt_of_succ_lt_succ hi
      have hmem : l[i] ∈ l := List.getElem_mem hi'
      rw [List.getElem_cons_succ, List.countP_cons_of_pos (by simpa using ha _ hmem), ih hl hi']

/-- The rank of a recorded CPU among the members of the mask. -/
theorem rank_maskCpus {mask : CpuSet} {k : ℕ} (hk : k < (maskCpus mask).length)
    {cpu : Fin cpuSetsize} (hcpu : (maskCpus mask)[k] = cpu.val) :
  (List.finRange cpuSetsize).countP (fun i => mask i && decide (i < cpu)) = k
  := by
  have hrank := countP_lt_getElem (maskCpus_sorted mask) hk
  rw [hcpu] at hrank
  conv_rhs => rw [← hrank]
  rw [maskCpus, List.countP_map, List.countP_filter]
  apply List.countP_congr
  intro i _
  simp [Bool.and_comm]

/-! ## Pinning -/

/-- Pinning that is asked for is on when the mask has a member. -/
theorem kbAffinityInit_enabled {mask : CpuSet} (hmask : 1 ≤ cpuCount mask) :
  (kbAffinityInit (some mask) true).enabled = true
  := by
  have h : (kbAffinityInit (some mask) true).enabled
      = decide ((kbAffinityInit (some mask) true).cpus.length > 0) := by
    rw [kbAffinityInit, Bool.true_and]
  rw [h, kbAffinityInit_cpus, length_maskCpus, decide_eq_true_eq]
  apply hmask

/-- The wrapped number of a worker. -/
theorem wrap_tid (t c : ℕ) :
  (((t : ℤ).tmod c + c).tmod c).toNat = t % c
  := by
  have hmod : (t : ℤ).tmod c = ((t % c : ℕ) : ℤ) := by
    rw [Int.tmod_eq_emod_of_nonneg (Int.natCast_nonneg t), Int.natCast_emod]
  have hsum : ((t % c : ℕ) : ℤ) + c = ((t % c + c : ℕ) : ℤ) := by
    rw [Int.natCast_add]
  rw [hmod, hsum, Int.tmod_eq_emod_of_nonneg (Int.natCast_nonneg _), ← Int.natCast_emod,
    Int.toNat_natCast, Nat.add_mod_right, Nat.mod_mod]

/-- The CPU of a worker is the entry at its number modulo the number of CPUs. -/
theorem pinTarget_eq {mask : CpuSet} (hmask : 1 ≤ cpuCount mask) (t : ℕ) :
  pinTarget (kbAffinityInit (some mask) true) t = (maskCpus mask)[t % cpuCount mask]?
  := by
  have hpos : ¬ cpuCount mask ≤ 0 := by omega
  rw [pinTarget, kbAffinityInit_enabled hmask, kbAffinityInit_cpus, length_maskCpus]
  simp only [Bool.not_true, Bool.false_or, decide_eq_true_eq, hpos, if_false, wrap_tid]

/-- How many of the numbers below `n` leave the remainder `k`: the quotient, rounded down or
up. -/
theorem count_mod (n : ℕ) {c k : ℕ} (hk : k < c) :
  n.count (fun t => t % c = k) = n / c ∨ n.count (fun t => t % c = k) = (n + c - 1) / c
  := by
  have hc : 0 < c := Nat.zero_lt_of_lt hk
  have hcount : n.count (fun t => t % c = k) = n / c + if k < n % c then 1 else 0 := by
    have h := Nat.count_modEq_card n hc k
    simp only [Nat.ModEq, Nat.mod_eq_of_lt hk] at h
    apply h
  rw [hcount]
  split_ifs with hlt
  · right
    have hmod := Nat.mod_lt n hc
    have hsum : n + c - 1 = (n % c - 1) + c * (n / c + 1) := by
      have hdiv := Nat.div_add_mod n c
      rw [Nat.mul_add, Nat.mul_one]
      generalize c * (n / c) = m at hdiv
      omega
    have hrest : n % c - 1 < c := by omega
    rw [hsum, Nat.add_mul_div_left _ _ hc, Nat.div_eq_of_lt hrest, Nat.zero_add]
  · exact Or.inl rfl

/-- The workers that are pinned to the CPU at a position. -/
theorem pinTarget_eq_some_iff {mask : CpuSet} (hmask : 1 ≤ cpuCount mask) {k : ℕ}
    (hk : k < (maskCpus mask).length) (t : ℕ) :
  pinTarget (kbAffinityInit (some mask) true) t = some (maskCpus mask)[k]
    ↔ t % cpuCount mask = k
  := by
  have hnodup : (maskCpus mask).Nodup := (maskCpus_sorted mask).imp Nat.ne_of_lt
  have hlt : t % cpuCount mask < (maskCpus mask).length := by
    rw [length_maskCpus]
    apply Nat.mod_lt t hmask
  rw [pinTarget_eq hmask, List.getElem?_eq_getElem hlt, Option.some_inj, hnodup.getElem_inj_iff]

/-- Worker `t` is pinned to the CPU of the mask with `t mod c` members of the mask below it, and
each CPU of the mask gets `n / c` of `n` workers, rounded down or up. -/
theorem pin_spec (mask : CpuSet) (hmask : 1 ≤ cpuCount mask) (n : ℕ) :
  (∀ t < n, ∃ cpu : Fin cpuSetsize,
      pinTarget (kbAffinityInit (some mask) true) t = some cpu.val ∧
      (∀ takes, kbPinSelf (kbAffinityInit (some mask) true) takes t
        = if takes cpu.val then (cpu.val : ℤ) else -1) ∧
      mask cpu = true ∧
      (List.finRange cpuSetsize).countP (fun i => mask i && decide (i < cpu))
        = t % cpuCount mask) ∧
    ∀ cpu : Fin cpuSetsize, mask cpu = true →
      n.count (fun t => pinTarget (kbAffinityInit (some mask) true) t = some cpu.val)
          = n / cpuCount mask ∨
        n.count (fun t => pinTarget (kbAffinityInit (some mask) true) t = some cpu.val)
          = (n + cpuCount mask - 1) / cpuCount mask
  := by
  constructor
  · intro t _
    have hlt : t % cpuCount mask < (maskCpus mask).length := by
      rw [length_maskCpus]
      apply Nat.mod_lt t hmask
    obtain ⟨cpu, hmem, hval⟩ := mem_maskCpus.mp (List.getElem_mem hlt)
    have htarget : pinTarget (kbAffinityInit (some mask) true) t = some cpu.val := by
      rw [hval]
      apply (pinTarget_eq_some_iff hmask hlt t).mpr rfl
    use cpu
    and_intros
    · apply htarget
    · intro takes
      rw [kbPinSelf, htarget]
    · apply hmem
    · apply rank_maskCpus hlt hval.symm
  · intro cpu hcpu
    obtain ⟨k, hk, hget⟩ := List.getElem_of_mem (mem_maskCpus.mpr ⟨cpu, hcpu, rfl⟩)
    have hlt : k < cpuCount mask := by
      rw [← length_maskCpus]
      apply hk
    simp only [← hget, pinTarget_eq_some_iff hmask hk]
    apply count_mod n hlt

/-- Of 64 workers on the CPUs `0-15`, CPU 3 gets four. -/
theorem pin_spec_example :
  (64 : ℕ).count (fun t => pinTarget
    (kbAffinityInit (some (fun i => decide (i.val < 16))) true) t = some 3) = 4
  := by
  have hcount : cpuCount (fun i => decide (i.val < 16)) = 16 := by decide +kernel
  have hlt : 3 < cpuSetsize := by decide
  have h := (pin_spec (fun i => decide (i.val < 16)) (by rw [hcount]; decide) 64).2 ⟨3, hlt⟩ rfl
  rw [hcount] at h
  rcases h with h | h
  · exact h
  · exact h

end Keybench
