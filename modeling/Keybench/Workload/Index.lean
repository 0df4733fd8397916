import Keybench.Workload.Lua

/-!
# Keys of an index

The workloads mixed, scan, batch and valsize print an index with twelve digits and zeros before
it.  Numbers that are printed with the same number of digits are ordered as their texts are, so
the keys of indices below `10 ^ 12` are in numeric order (`indexKey_lt_iff`).
-/

namespace Keybench

/-! ## Digits -/

/-- The first digit counts most. -/
theorem ofDigits_cons (c : UInt8) (ds : Bytes) :
  ofDigits 10 (c :: ds) = digitValue c * 10 ^ ds.length + ofDigits 10 ds
  := by
  have hfold : ∀ (ds : Bytes) (n : ℕ), ds.foldl (fun n c => 10 * n + digitValue c) n
      = n * 10 ^ ds.length + ds.foldl (fun n c => 10 * n + digitValue c) 0 := by
    intro ds
    induction ds with
    | nil => simp
    | cons d ds ih =>
      intro n
      rw [List.foldl_cons, List.foldl_cons, ih, ih (10 * 0 + _), List.length_cons, pow_succ]
      ring
  rw [ofDigits, List.foldl_cons, hfold, ofDigits, Nat.mul_zero, Nat.zero_add]

/-- The value of a digit. -/
theorem digitValue_of_isdigit {c : UInt8} (h : isdigit c = true) :
  digitValue c = c.toNat - 48 ∧ 48 ≤ c.toNat ∧ c.toNat ≤ 57
  := by
  rw [digitValue, if_pos h]
  rw [isdigit, Bool.and_eq_true, decide_eq_true_eq, decide_eq_true_eq] at h
  exact ⟨rfl, h⟩

/-- A number is bounded by its number of digits. -/
theorem ofDigits_lt {ds : Bytes} (h : ∀ c ∈ ds, isdigit c = true) :
  ofDigits 10 ds < 10 ^ ds.length
  := by
  induction ds with
  | nil => decide
  | cons c ds ih =>
    have hrest := ih (fun d hd => h d (List.mem_cons_of_mem _ hd))
    obtain ⟨hvalue, hlo, hhi⟩ := digitValue_of_isdigit (h c List.mem_cons_self)
    have hle : digitValue c * 10 ^ ds.length ≤ 9 * 10 ^ ds.length :=
      Nat.mul_le_mul_right _ (by omega)
    rw [ofDigits_cons, List.length_cons, pow_succ]
    omega

/-- Numbers with the same number of digits are ordered as their texts. -/
theorem lt_iff_ofDigits_lt {ds es : Bytes} (hds : ∀ c ∈ ds, isdigit c = true)
    (hes : ∀ c ∈ es, isdigit c = true) (hlen : ds.length = es.length) :
  ds < es ↔ ofDigits 10 ds < ofDigits 10 es
  := by
  induction ds generalizing es with
  | nil =>
    rw [List.eq_nil_of_length_eq_zero hlen.symm]
    simp
  | cons c ds ih =>
    cases es with
    | nil => simp at hlen
    | cons d es =>
      have hds' : ∀ x ∈ ds, isdigit x = true := fun x hx => hds x (List.mem_cons_of_mem _ hx)
      have hes' : ∀ x ∈ es, isdigit x = true := fun x hx => hes x (List.mem_cons_of_mem _ hx)
      have hlen' : ds.length = es.length := by simpa using hlen
      obtain ⟨hc, hc48, -⟩ := digitValue_of_isdigit (hds c List.mem_cons_self)
      obtain ⟨hd, hd48, -⟩ := digitValue_of_isdigit (hes d List.mem_cons_self)
      have hltc : ofDigits 10 ds < 10 ^ es.length := hlen' ▸ ofDigits_lt hds'
      have hltd := ofDigits_lt hes'
      have hcd : c.toNat < d.toNat ↔ digitValue c < digitValue d := by omega
      have heq : c = d ↔ digitValue c = digitValue d := by
        rw [← UInt8.toNat_inj]
        omega
      rw [List.cons_lt_cons_iff, ih hds' hes' hlen', ofDigits_cons, ofDigits_cons, hlen',
        UInt8.lt_iff_toNat_lt, hcd, heq]
      rcases lt_trichotomy (digitValue c) (digitValue d) with h | h | h
      · have hmul := Nat.mul_le_mul_right (10 ^ es.length) (Nat.succ_le_of_lt h)
        rw [Nat.succ_mul] at hmul
        simp only [h, true_or, true_iff]
        omega
      · simp [h]
      · have hmul := Nat.mul_le_mul_right (10 ^ es.length) (Nat.succ_le_of_lt h)
        rw [Nat.succ_mul] at hmul
        simp only [not_lt.mpr h.le, h.ne', false_and, or_self, false_iff, not_lt]
        omega

/-- A number of at most `w` digits is printed with `w` digits. -/
theorem length_zeroPad_fmtNat {w n : ℕ} (hw : 1 ≤ w) (hn : n < 10 ^ w) :
  (zeroPad w (fmtNat n)).length = w
  := by
  have hle : (fmtNat n).length ≤ w := by
    rw [fmtNat]
    split_ifs
    · apply hw
    · rw [List.length_map, List.length_reverse]
      apply (Nat.digits_length_le_iff (by norm_num) n).mpr hn
  rw [zeroPad, List.length_append, List.length_replicate, Nat.sub_add_cancel hle]

/-! ## Keys -/

/-- `%012d`. -/
def fmt012 (n : ℤ) : Bytes :=
  if n < 0 then chr '-' :: zeroPad 11 (fmtNat n.natAbs) else zeroPad 12 (fmtNat n.natAbs)

/-- The text that `key` gives for an index. -/
def indexKey (i : ℤ) : Bytes := ascii "k:" ++ fmt012 i

/-- `key`, which raises an error for a negative index. -/
def key (i : ℤ) : Option Bytes := if i < 0 then none else some (indexKey i)

/-- The key of an index that is not negative. -/
theorem key_of_nonneg {i : ℤ} (hi : 0 ≤ i) :
  key i = some (indexKey i)
  := by
  rw [key, if_neg (not_lt.mpr hi)]

/-- The digits of a key. -/
theorem indexKey_natCast (i : ℕ) :
  indexKey i = ascii "k:" ++ zeroPad 12 (fmtNat i)
  := by
  rw [indexKey, fmt012, if_neg (by omega), Int.natAbs_natCast]

/-- Different indices have different keys. -/
theorem indexKey_injective {i j : ℕ} (h : indexKey i = indexKey j) :
  i = j
  := by
  rw [indexKey_natCast, indexKey_natCast] at h
  have hvalue := congrArg (ofDigits 10) (List.append_cancel_left h)
  rwa [ofDigits_zeroPad, ofDigits_zeroPad] at hvalue

/-- Up to twelve digits, keys are in numeric order. -/
theorem indexKey_lt_iff {i j : ℕ} (hi : i < 10 ^ 12) (hj : j < 10 ^ 12) :
  indexKey i < indexKey j ↔ i < j
  := by
  have hprefix : ∀ a b : Bytes, ascii "k:" ++ a < ascii "k:" ++ b ↔ a < b := by
    intro a b
    change chr 'k' :: chr ':' :: a < chr 'k' :: chr ':' :: b ↔ a < b
    simp
  rw [indexKey_natCast, indexKey_natCast, hprefix,
    lt_iff_ofDigits_lt (fun c hc => isdigit_of_mem_zeroPad hc)
      (fun c hc => isdigit_of_mem_zeroPad hc)
      ((length_zeroPad_fmtNat (by norm_num) hi).trans
        (length_zeroPad_fmtNat (by norm_num) hj).symm),
    ofDigits_zeroPad, ofDigits_zeroPad]

end Keybench
