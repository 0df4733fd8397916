import Mathlib.Data.List.Basic
import Mathlib.Order.Nat

/-!
# A memory that is recycled

The cells of a memory are numbered.  A block is an address with a length.  `Alloc` is an
allocation that may recycle every cell outside the blocks that are still referenced: it writes a
new block apart from them and leaves their cells as they are, and nothing is known of the other
cells.
-/

namespace Recycling

variable {β : Type*}

/-- A block: the address of its first cell, and its length. -/
abbrev Block : Type := ℕ × ℕ

/-- The contents of a block. -/
def read (m : ℕ → β) (b : Block) : List β := (List.range b.2).map (fun i => m (b.1 + i))

/-- Two blocks have no common cell. -/
def Apart (b c : Block) : Prop := b.1 + b.2 ≤ c.1 ∨ c.1 + c.2 ≤ b.1

/-- An allocation of a block at the address `a` with the contents `s`, while the blocks in `refs`
are referenced. -/
structure Alloc (refs : List Block) (m : ℕ → β) (s : List β) (a : ℕ) (m' : ℕ → β) : Prop where
  /-- The new block has the contents. -/
  new : read m' (a, s.length) = s
  /-- The new block is apart from the referenced ones. -/
  apart : ∀ b ∈ refs, Apart b (a, s.length)
  /-- The referenced blocks keep their contents. -/
  kept : ∀ b ∈ refs, read m' b = read m b

/-- The contents of a block have its length. -/
@[simp]
theorem length_read (m : ℕ → β) (b : Block) :
  (read m b).length = b.2
  := by
  simp [read]

/-- A block depends on its cells alone. -/
theorem read_congr {m m' : ℕ → β} {b : Block} (h : ∀ x, b.1 ≤ x → x < b.1 + b.2 → m x = m' x) :
  read m b = read m' b
  := by
  apply List.map_congr_left
  intro i hi
  rw [List.mem_range] at hi
  apply h <;> omega

/-- The block at an address where some contents have been written. -/
theorem read_written {m : ℕ → β} {s : List β} {a : ℕ}
    (h : ∀ i (hi : i < s.length), m (a + i) = s[i]) :
  read m (a, s.length) = s
  := by
  apply List.ext_getElem
  · simp
  · intro i hi hi'
    simp [read, h i hi']

/-- The first cell of a block. -/
theorem head?_read (m : ℕ → β) {b : Block} (hb : 0 < b.2) :
  (read m b).head? = some (m b.1)
  := by
  obtain ⟨n, hn⟩ := Nat.exists_eq_succ_of_ne_zero hb.ne'
  rw [read, hn, List.range_succ_eq_map]
  simp

/-- All referenced blocks lie below some address. -/
theorem exists_bound (refs : List Block) :
  ∃ a, ∀ b ∈ refs, b.1 + b.2 ≤ a
  := by
  induction refs with
  | nil => exact ⟨0, by simp⟩
  | cons c refs ih =>
    obtain ⟨a, ha⟩ := ih
    use max a (c.1 + c.2)
    intro b hb
    rcases List.mem_cons.mp hb with rfl | hb
    · apply le_max_right
    · apply (ha b hb).trans (le_max_left _ _)

/-- Above the referenced blocks every write is an allocation. -/
theorem alloc_above {refs : List Block} {top a : ℕ} (htop : ∀ b ∈ refs, b.1 + b.2 ≤ top)
    (ha : top ≤ a) {m m' : ℕ → β} (hbelow : ∀ x < top, m' x = m x) {s : List β}
    (hs : ∀ i (hi : i < s.length), m' (a + i) = s[i]) :
  Alloc refs m s a m'
  := by
  constructor
  · apply read_written hs
  · intro b hb
    left
    apply (htop b hb).trans ha
  · intro b hb
    apply read_congr
    intro x _ hx
    apply hbelow
    apply lt_of_lt_of_le hx (htop b hb)

end Recycling
