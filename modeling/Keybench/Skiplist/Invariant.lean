import Keybench.Skiplist.Linked

/-!
# The invariant of the skiplist

`SlInv s hd rows` is the invariant the operations keep: the heap of `s` holds the head `hd`
and the rows `rows`, every row linked on the levels below its own; the keys ascend strictly;
the list's level is the greatest level of a row, or one; and the count is the number of
rows.  A search finds, on every level of the list, the last row with a smaller key, and on
level zero the place of the key.
-/

namespace Keybench

variable {R : Type}

/-- The heap of `s` holds `rows` after the head `hd`, in order and fully linked. -/
structure SlInv (s : Skiplist R) (hd : Row) (rows : List Row) : Prop where
  head_eq : s.head = hd.addr
  head_cap : hd.cap = slMaxLevel
  on_eq : ∀ r ∈ hd :: rows, ∀ i, r.on i = decide (i < r.cap)
  linked : Linked s.mem (hd :: rows)
  nodup : ((hd :: rows).map Row.addr).Nodup
  fresh : ∀ r ∈ hd :: rows, r.addr < s.brk
  sorted : rows.Pairwise (fun r r' => r.key < r'.key)
  cap_pos : ∀ r ∈ rows, 0 < r.cap
  cap_le : ∀ r ∈ rows, r.cap ≤ s.level
  level_pos : 0 < s.level
  level_le : s.level ≤ slMaxLevel
  tight : 1 < s.level → ∃ r ∈ rows, r.cap = s.level
  count_eq : s.count = rows.length

/-- The row of the head cell of a new list. -/
def headRow : Row where
  addr := 0
  key := []
  val := []
  cap := slMaxLevel
  on := fun i => decide (i < slMaxLevel)

/-- A new list has no rows. -/
theorem SlInv.open (rng : R) :
  SlInv (skiplistOpen rng) headRow []
  := by
  constructor
  case linked =>
    constructor
    · use fun _ => none
      constructor
      · simp [skiplistOpen, headRow, nodeNew]
      · intro i hi
        use of_decide_eq_true hi
        rfl
    · trivial
  case on_eq =>
    intro r hr i
    obtain rfl := List.mem_singleton.mp hr
    rfl
  all_goals simp [skiplistOpen, headRow, slMaxLevel]

namespace SlInv

variable {s : Skiplist R} {hd : Row} {rows above below : List Row} {k : Bytes}

/-- A row is linked on every level below one it is linked on. -/
theorem on_down (h : SlInv s hd rows) {r : Row} (hr : r ∈ hd :: rows) {i j : ℕ} (hij : i ≤ j)
    (hj : r.on j = true) :
  r.on i = true
  := by
  rw [h.on_eq r hr, decide_eq_true_eq] at hj ⊢
  omega

/-- The head is linked on every level a search visits. -/
theorem head_on (h : SlInv s hd rows) {i : ℕ} (hi : i < slMaxLevel) :
  hd.on i = true
  := by
  rw [h.on_eq hd List.mem_cons_self, decide_eq_true_eq, h.head_cap]
  apply hi

/-- A row is linked on level zero. -/
theorem on_zero (h : SlInv s hd rows) {r : Row} (hr : r ∈ rows) :
  r.on 0 = true
  := by
  rw [h.on_eq r (List.mem_cons_of_mem hd hr), decide_eq_true_eq]
  apply h.cap_pos r hr

/-- On level zero the next row is the first. -/
theorem towerNext_zero (h : SlInv s hd rows) {before after : List Row}
    (hrows : rows = before ++ after) :
  towerNext after 0 = after.head?.map Row.addr
  := by
  cases after with
  | nil => rfl
  | cons r after =>
    apply towerNext_cons_on
    apply h.on_zero
    simp [hrows]

/-- On level zero, the last row of a part of the list is the last one linked. -/
theorem next_of_lastOn (h : SlInv s hd (below ++ above)) {p : Row} (hp : LastOn 0 (hd :: below) p) :
  nextAt s.mem p.addr 0 = some (above.head?.map Row.addr)
  := by
  obtain ⟨before, after, hsplit, hp0, hafter⟩ := hp
  have hlinked : Linked s.mem (before ++ p :: (after ++ above)) := by
    have hl := h.linked
    rw [← List.cons_append, hsplit] at hl
    simpa using hl
  have hnil : after = [] := by
    apply List.eq_nil_iff_forall_not_mem.mpr
    intro r hr
    have hmem : r ∈ (hd :: below).tail := mem_tail_of_split hsplit hr
    have hon := h.on_zero (List.mem_append_left above hmem)
    rw [hafter r hr] at hon
    apply Bool.false_ne_true hon
  subst hnil
  rw [hlinked.cell.nextAt_eq hp0, List.nil_append, h.towerNext_zero rfl]

/-- The answer of `slMatch` after a search for `k`: the first row from `k` on when it has
that key. -/
def found (k : Bytes) : List Row → Option Addr
  | [] => none
  | r :: _ => if r.key = k then some r.addr else none

/-- What a search finds. -/
theorem search (h : SlInv s hd (below ++ above)) (hbelow : ∀ r ∈ below, r.key < k)
    (habove : ∀ r ∈ above, k ≤ r.key) {fuel : ℕ} (hfuel : below.length + 1 < fuel) :
  ∃ x update, slDescend s.mem k fuel s.level s.head (fun _ => none) = some (x, update) ∧
    (∀ i < s.level, ∃ p, update i = some p.addr ∧ LastOn i (hd :: below) p) ∧
    nextAt s.mem x 0 = some (above.head?.map Row.addr) ∧
    slMatch s.mem x k = some (found k above)
  := by
  have hlinked : Linked s.mem ((hd :: below) ++ above) := h.linked
  have hdown : ∀ r ∈ hd :: below, ∀ i j, i ≤ j → r.on j = true → r.on i = true := by
    intro r hr i j
    apply h.on_down (List.mem_append_left above hr)
  have hlevel : s.level ≤ slMaxLevel := h.level_le
  obtain ⟨x, update, hrun, hlow, -, hx⟩ :=
    slDescend_spec hlinked hbelow habove hdown hfuel (fun _ => none) hlevel
      List.mem_cons_self (fun i hi => h.head_on (by omega))
  obtain ⟨p, rfl, hp⟩ := hx h.level_pos
  have hnext := h.next_of_lastOn hp
  use p.addr, update
  rw [h.head_eq]
  use hrun, hlow, hnext
  cases above with
  | nil =>
    simp only [List.head?_nil, Option.map_none] at hnext
    simp only [slMatch, hnext, Option.bind_eq_bind, Option.bind_some, found]
  | cons r above =>
    simp only [List.head?_cons, Option.map_some] at hnext
    have hr : Linked s.mem ((hd :: below) ++ r :: above) := h.linked
    obtain ⟨next, hcell, -⟩ := hr.cell
    simp only [slMatch, hnext, hcell, Option.bind_eq_bind, Option.bind_some, found,
      kvKeycmp_eq_zero_iff]
    split <;> rfl

end SlInv

end Keybench
