import Mathlib.Data.List.Basic
import Mathlib.Data.List.Chain
import Mathlib.Order.Basic

/-!
# Lists of numbers as ranges

A range is a pair of its least and its greatest number.  A list of numbers is divided into
ranges of consecutive numbers (`ranges`), which give the list back when they are written out
(`flatMap_expand_ranges`).  A strictly increasing list has only one division into ranges that
leave gaps between them, and this is it (`isMaximal_ranges`, `IsMaximal.eq_ranges`).
-/

namespace Ranges

/-- The numbers of a range. -/
def expand (r : ℕ × ℕ) : List ℕ := List.range' r.1 (r.2 + 1 - r.1)

/-- Put a number before the ranges of the numbers after it. -/
def push (c : ℕ) : List (ℕ × ℕ) → List (ℕ × ℕ)
  | [] => [(c, c)]
  | r :: rs => if r.1 = c + 1 then (c, r.2) :: rs else (c, c) :: r :: rs

/-- The division of a list into ranges of consecutive numbers. -/
def ranges (l : List ℕ) : List (ℕ × ℕ) := l.foldr push []

/-- Ranges with a gap between each and the next that make up a list. -/
structure IsMaximal (l : List ℕ) (rs : List (ℕ × ℕ)) : Prop where
  /-- Ranges are not empty. -/
  le : ∀ r ∈ rs, r.1 ≤ r.2
  /-- There is a gap between a range and the next. -/
  gap : rs.IsChain (fun r s => r.2 + 1 < s.1)
  /-- Written out they are the list. -/
  covers : rs.flatMap expand = l

@[simp]
theorem ranges_nil :
  ranges [] = []
  := rfl

@[simp]
theorem ranges_cons (c : ℕ) (l : List ℕ) :
  ranges (c :: l) = push c (ranges l)
  := rfl

theorem expand_single (c : ℕ) :
  expand (c, c) = [c]
  := by
  simp [expand]

/-- The first number of a range and the rest of it. -/
theorem expand_cons {a b : ℕ} (h : a < b) :
  expand (a, b) = a :: expand (a + 1, b)
  := by
  have hlen : b + 1 - a = (b + 1 - (a + 1)) + 1 := by omega
  rw [expand, hlen, List.range'_succ, expand]

/-- Ranges hold what they began with. -/
theorem le_of_mem_push {c : ℕ} {rs : List (ℕ × ℕ)} (h : ∀ r ∈ rs, r.1 ≤ r.2) :
  ∀ r ∈ push c rs, r.1 ≤ r.2
  := by
  cases rs with
  | nil => simp [push]
  | cons s rs =>
    have hs := h s List.mem_cons_self
    intro r hr
    rw [push] at hr
    split_ifs at hr with hc
    · rcases List.mem_cons.mp hr with rfl | hr
      · show c ≤ s.2
        omega
      · apply h r (List.mem_cons_of_mem _ hr)
    · rcases List.mem_cons.mp hr with rfl | hr
      · apply le_refl
      · apply h r hr

/-- Ranges are not empty. -/
theorem le_of_mem_ranges {l : List ℕ} :
  ∀ r ∈ ranges l, r.1 ≤ r.2
  := by
  induction l with
  | nil => simp
  | cons c l ih => apply le_of_mem_push ih

/-- A number before ranges is written out before them. -/
theorem flatMap_expand_push {c : ℕ} {rs : List (ℕ × ℕ)} (h : ∀ r ∈ rs, r.1 ≤ r.2) :
  (push c rs).flatMap expand = c :: rs.flatMap expand
  := by
  cases rs with
  | nil => simp [push, expand_single]
  | cons s rs =>
    have hs := h s List.mem_cons_self
    rw [push]
    split_ifs with hc
    · obtain ⟨a, b⟩ := s
      obtain rfl : a = c + 1 := hc
      rw [List.flatMap_cons, expand_cons (by dsimp only at hs; omega), List.flatMap_cons,
        List.cons_append]
    · rw [List.flatMap_cons, expand_single, List.singleton_append]

/-- Ranges written out are the list. -/
theorem flatMap_expand_ranges (l : List ℕ) :
  (ranges l).flatMap expand = l
  := by
  induction l with
  | nil => rfl
  | cons c l ih => rw [ranges_cons, flatMap_expand_push le_of_mem_ranges, ih]

/-- The first range starts with the first number. -/
theorem head_ranges {l : List ℕ} {r : ℕ × ℕ} {rs : List (ℕ × ℕ)} (h : ranges l = r :: rs) :
  ∃ t, l = r.1 :: t
  := by
  cases l with
  | nil => cases h
  | cons c l =>
    use l
    rw [ranges_cons] at h
    cases hl : ranges l with
    | nil =>
      rw [hl, push, List.cons.injEq] at h
      rw [← h.1]
    | cons s ss =>
      rw [hl, push] at h
      split_ifs at h
      · rw [List.cons.injEq] at h
        rw [← h.1]
      · rw [List.cons.injEq] at h
        rw [← h.1]

/-- A number below the first range that does not reach it leaves a gap. -/
theorem isChain_push {c : ℕ} {rs : List (ℕ × ℕ)} (h : rs.IsChain (fun r s => r.2 + 1 < s.1))
    (hc : ∀ r ∈ rs.head?, c < r.1) :
  (push c rs).IsChain (fun r s => r.2 + 1 < s.1)
  := by
  cases rs with
  | nil => simp [push]
  | cons s rs =>
    have hs := hc s rfl
    rw [push]
    split_ifs with heq
    · cases rs with
      | nil => simp
      | cons t rs =>
        rw [List.isChain_cons_cons] at h ⊢
        apply h
    · rw [List.isChain_cons_cons]
      constructor
      · show c + 1 < s.1
        omega
      · apply h

/-- The ranges of a strictly increasing list are maximal. -/
theorem isMaximal_ranges {l : List ℕ} (hl : l.IsChain (· < ·)) :
  IsMaximal l (ranges l)
  where
  le := le_of_mem_ranges
  covers := flatMap_expand_ranges l
  gap := by
    induction l with
    | nil => simp
    | cons c l ih =>
      apply isChain_push (ih hl.of_cons)
      intro r hr
      cases hrs : ranges l with
      | nil => simp [hrs] at hr
      | cons s ss =>
        obtain ⟨t, rfl⟩ := head_ranges hrs
        rw [hrs, List.head?_cons, Option.mem_some_iff] at hr
        rw [← hr]
        apply (List.isChain_cons_cons.mp hl).1

/-- A range before a list stays a range of its own, unless the list goes on with the next
number. -/
theorem ranges_expand_append (c d : ℕ) (l : List ℕ) :
  ranges (expand (c, c + d) ++ l) = (c, c + d) :: ranges l
    ∨ ∃ s ∈ (ranges l).head?, s.1 = c + d + 1
  := by
  induction d generalizing c with
  | zero =>
    rw [Nat.add_zero, expand_single, List.singleton_append, ranges_cons]
    cases ranges l with
    | nil => exact Or.inl rfl
    | cons s ss =>
      rw [push]
      split_ifs with h
      · right
        use s
        simp [h]
      · exact Or.inl rfl
  | succ d ih =>
    have hnext : c + (d + 1) = c + 1 + d := by omega
    rw [expand_cons (by omega), List.cons_append, ranges_cons, hnext]
    rcases ih (c + 1) with h | h
    · left
      rw [h, push, if_pos rfl]
    · exact Or.inr h

/-- A division into maximal ranges is that into ranges of consecutive numbers. -/
theorem IsMaximal.eq_ranges {l : List ℕ} {rs : List (ℕ × ℕ)} (h : IsMaximal l rs) :
  rs = ranges l
  := by
  obtain ⟨hle, hgap, rfl⟩ := h
  induction rs with
  | nil => rfl
  | cons r rs ih =>
    have htail := ih (fun s hs => hle s (List.mem_cons_of_mem _ hs)) hgap.of_cons
    obtain ⟨a, b⟩ := r
    have hr : a ≤ b := hle (a, b) List.mem_cons_self
    obtain ⟨d, rfl⟩ := Nat.exists_eq_add_of_le hr
    rw [List.flatMap_cons]
    rcases ranges_expand_append a d (rs.flatMap expand) with hrec | ⟨s, hs, hsa⟩
    · rw [hrec, ← htail]
    · -- the next range would start where this one ends
      rw [← htail] at hs
      cases rs with
      | nil => cases hs
      | cons t rs =>
        obtain rfl : t = s := Option.some_inj.mp hs
        have hlt := (List.isChain_cons_cons.mp hgap).1
        dsimp only at hlt
        omega

/-! ## The end of a range -/

/-- The end of the range that starts with `c`, and the numbers after it. -/
def runEnd (c : ℕ) : List ℕ → ℕ × List ℕ
  | [] => (c, [])
  | d :: l => if d = c + 1 then runEnd d l else (c, d :: l)

theorem runEnd_length (c : ℕ) (l : List ℕ) :
  (runEnd c l).2.length ≤ l.length
  := by
  induction l generalizing c with
  | nil => apply le_refl
  | cons d l ih =>
    rw [runEnd]
    split_ifs
    · apply Nat.le_succ_of_le (ih d)
    · apply le_refl

/-- The first range of a list, and the ranges after it. -/
theorem ranges_cons_eq (c : ℕ) (l : List ℕ) :
  ranges (c :: l) = (c, (runEnd c l).1) :: ranges (runEnd c l).2
  := by
  induction l generalizing c with
  | nil => rfl
  | cons d l ih =>
    rw [ranges_cons, ih, runEnd, push]
    split_ifs with h
    · rfl
    · rw [ih]

end Ranges
