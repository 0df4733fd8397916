import Mathlib.Data.List.Forall2
import Mathlib.Data.List.Nodup

/-!
# Traces in blocks

A loop leaves a trace that is made of blocks, one for each of its items in their order.  What is
kept of the trace for one item is what is kept of its own block (`filter_flatten_of_mem`).
-/

namespace Blocks

variable {α ε : Type*} {P : α → List ε → Prop} {xs : List α} {blocks : List (List ε)}

/-- What holds of the trace of each block, and of two traces together, holds of the whole. -/
theorem flatten_induct {Q : List ε → Prop} (h : List.Forall₂ P xs blocks) (hnil : Q [])
    (happend : ∀ es fs, Q es → Q fs → Q (es ++ fs)) (hblock : ∀ x ∈ xs, ∀ b, P x b → Q b) :
  Q blocks.flatten
  := by
  induction h with
  | nil => apply hnil
  | @cons x b xs blocks hx _ ih =>
    rw [List.flatten_cons]
    apply happend
    · apply hblock x List.mem_cons_self b hx
    · apply ih
      intro y hy
      apply hblock y (List.mem_cons_of_mem x hy)

section Filter

variable {p : ε → Bool}

/-- Nothing is kept of a trace for an item that it does not have. -/
theorem filter_flatten_of_not_mem (h : List.Forall₂ P xs blocks) {x : α} (hx : x ∉ xs)
    (hother : ∀ y b, P y b → y ≠ x → b.filter p = []) :
  blocks.flatten.filter p = []
  := by
  apply flatten_induct (Q := fun es => es.filter p = []) h
  · rfl
  · intro es fs hes hfs
    rw [List.filter_append, hes, hfs, List.append_nil]
  · intro y hy b hP
    apply hother y b hP
    rintro rfl
    apply hx hy

/-- What is kept of a trace for an item is what is kept of its block. -/
theorem filter_flatten_of_mem (h : List.Forall₂ P xs blocks) (hnodup : xs.Nodup) {x : α}
    (hx : x ∈ xs) (hother : ∀ y b, P y b → y ≠ x → b.filter p = []) :
  ∃ b, P x b ∧ blocks.flatten.filter p = b.filter p
  := by
  induction h with
  | nil => cases hx
  | @cons y b xs blocks hy hrest ih =>
    obtain ⟨hnot, hnodup⟩ := List.nodup_cons.mp hnodup
    rw [List.flatten_cons, List.filter_append]
    rcases List.mem_cons.mp hx with rfl | hx
    · use b, hy
      rw [filter_flatten_of_not_mem hrest hnot hother, List.append_nil]
    · obtain ⟨b', hP, hfilter⟩ := ih hnodup hx
      use b', hP
      have hne : y ≠ x := by
        rintro rfl
        apply hnot hx
      rw [hother y b hy hne, hfilter, List.nil_append]

end Filter

end Blocks
