import Keybench.Skiplist.History

/-!
# The lists of a skiplist

A skiplist is a list on every level, threaded through the same nodes.  `LevelList mem i p
nodes` says that the pointers on level `i` lead from `p` through exactly the nodes `nodes`
to a null pointer, and `WellFormed s nodes` what holds of a skiplist with the nodes `nodes`:
they ascend strictly, the list on a level is the part of them that is higher than the level,
and the list's own level and count are theirs.

`slAfter_wellFormed` says that every sequence of calls leaves a well-formed skiplist,
whatever the heights drawn.
-/

namespace Keybench

/-- The pointers on level `i` from `p` on lead through the nodes listed. -/
inductive LevelList (mem : Mem) (i : ℕ) : Option Addr → List (Addr × SlNode) → Prop where
  | nil : LevelList mem i none []
  | cons {a : Addr} {c : SlNode} {p : Option Addr} {nodes : List (Addr × SlNode)}
      (hcell : mem a = some c) (hnext : nextAt mem a i = some p) (h : LevelList mem i p nodes) :
      LevelList mem i (some a) ((a, c) :: nodes)

/-- The skiplist consists of the nodes listed. -/
structure WellFormed {R : Type} (s : Skiplist R) (nodes : List (Addr × SlNode)) : Prop where
  /-- The keys ascend strictly. -/
  ascending : nodes.Pairwise (fun x y => kvKeycmp x.2.key y.2.key < 0)
  /-- The list on level zero is the list of all nodes. -/
  all : ∃ p, nextAt s.mem s.head 0 = some p ∧ LevelList s.mem 0 p nodes
  /-- The list on a level is that of the nodes above it. -/
  levels : ∀ i < slMaxLevel, ∃ p, nextAt s.mem s.head i = some p ∧
    LevelList s.mem i p (nodes.filter (fun x => i < x.2.level))
  /-- A list without nodes has level one. -/
  level_nil : nodes = [] → s.level = 1
  /-- No node is higher than the list. -/
  level_le : ∀ x ∈ nodes, x.2.level ≤ s.level
  /-- Some node is as high as the list. -/
  level_mem : nodes ≠ [] → ∃ x ∈ nodes, x.2.level = s.level
  /-- The head points to nothing from the list's level on. -/
  head_null : ∀ i, s.level ≤ i → i < slMaxLevel → nextAt s.mem s.head i = some none
  /-- The count is the number of nodes. -/
  count_eq : s.count = nodes.length

/-! ## From the rows to the nodes -/

/-- The node at the address of a row. -/
def Row.node (mem : Mem) (r : Row) : Addr × SlNode :=
  (r.addr, (mem r.addr).getD (nodeNew 0 [] []))

/-- The node of a linked row is in the heap and has the row's key and level. -/
theorem CellOk.node_eq {mem : Mem} {r : Row} {post : List Row} (h : CellOk mem r post) :
  mem r.addr = some (r.node mem).2 ∧ (r.node mem).2.key = r.key ∧ (r.node mem).2.level = r.cap
  := by
  obtain ⟨next, hcell, -⟩ := h
  simp [Row.node, hcell]

/-- The pointers on a level lead through the rows linked there. -/
theorem Linked.levelList {mem : Mem} {rows : List Row} (h : Linked mem rows) (i : ℕ) :
  LevelList mem i (towerNext rows i) ((rows.filter (fun r => r.on i)).map (Row.node mem))
  := by
  induction rows with
  | nil => apply LevelList.nil
  | cons r rows ih =>
    obtain ⟨hcell, hrows⟩ := h
    cases hr : r.on i with
    | true =>
      rw [towerNext_cons_on hr, List.filter_cons, if_pos hr, List.map_cons]
      apply LevelList.cons hcell.node_eq.1 (hcell.nextAt_eq hr) (ih hrows)
    | false =>
      rw [towerNext_cons_off hr, List.filter_cons, if_neg (Bool.eq_false_iff.mp hr)]
      apply ih hrows

/-- Every row of a linked list has its node. -/
theorem Linked.node_eq {mem : Mem} {rows : List Row} (h : Linked mem rows) {r : Row}
    (hr : r ∈ rows) :
  mem r.addr = some (r.node mem).2 ∧ (r.node mem).2.key = r.key ∧ (r.node mem).2.level = r.cap
  := by
  obtain ⟨before, after, rfl⟩ := List.append_of_mem hr
  apply h.cell.node_eq

namespace SlInv

variable {R : Type} {s : Skiplist R} {hd : Row} {rows : List Row}

/-- The nodes of the rows have the rows' keys and levels. -/
theorem node_eq (h : SlInv s hd rows) {r : Row} (hr : r ∈ rows) :
  s.mem r.addr = some (r.node s.mem).2 ∧ (r.node s.mem).2.key = r.key ∧
    (r.node s.mem).2.level = r.cap
  := h.linked.2.node_eq hr

/-- The head points on every level to the first row linked there. -/
theorem nextAt_head (h : SlInv s hd rows) {i : ℕ} (hi : i < slMaxLevel) :
  nextAt s.mem s.head i = some (towerNext rows i)
  := by
  rw [h.head_eq]
  apply h.linked.1.nextAt_eq (h.head_on hi)

/-- The rows linked on a level are those whose node is higher. -/
theorem filter_on (h : SlInv s hd rows) (i : ℕ) :
  (rows.filter (fun r => r.on i)).map (Row.node s.mem)
    = (rows.map (Row.node s.mem)).filter (fun x => i < x.2.level)
  := by
  rw [List.filter_map]
  congr 1
  apply List.filter_congr
  intro r hr
  rw [h.on_eq r (List.mem_cons_of_mem hd hr), Function.comp_apply, (h.node_eq hr).2.2]

/-- No row is linked from the list's level on. -/
theorem towerNext_high (h : SlInv s hd rows) {i : ℕ} (hi : s.level ≤ i) :
  towerNext rows i = none
  := by
  have hoff : ∀ r ∈ rows, r.on i = false := by
    intro r hr
    have hcap := h.cap_le r hr
    rw [h.on_eq r (List.mem_cons_of_mem hd hr), decide_eq_false_iff_not]
    omega
  have hnext := towerNext_append_off hoff []
  rw [List.append_nil] at hnext
  apply hnext

/-- The list on a level is that of the nodes above it. -/
theorem levelList (h : SlInv s hd rows) {i : ℕ} (hi : i < slMaxLevel) :
  ∃ p, nextAt s.mem s.head i = some p ∧
    LevelList s.mem i p ((rows.map (Row.node s.mem)).filter (fun x => i < x.2.level))
  := by
  use towerNext rows i, h.nextAt_head hi
  rw [← h.filter_on i]
  apply h.linked.2.levelList

/-- Every node is above level zero. -/
theorem filter_zero (h : SlInv s hd rows) :
  (rows.map (Row.node s.mem)).filter (fun x => 0 < x.2.level) = rows.map (Row.node s.mem)
  := by
  apply List.filter_eq_self.mpr
  intro x hx
  obtain ⟨r, hr, rfl⟩ := List.mem_map.mp hx
  rw [(h.node_eq hr).2.2, decide_eq_true_eq]
  apply h.cap_pos r hr

/-- A list without rows has level one. -/
theorem level_nil (h : SlInv s hd []) :
  s.level = 1
  := by
  apply Nat.le_antisymm _ h.level_pos
  by_contra hlt
  obtain ⟨r, hr, -⟩ := h.tight (not_le.mp hlt)
  apply List.not_mem_nil hr

/-- Some row is as high as the list. -/
theorem exists_cap_eq (h : SlInv s hd rows) (hne : rows ≠ []) :
  ∃ r ∈ rows, r.cap = s.level
  := by
  rcases Nat.lt_or_ge 1 s.level with hlt | hge
  · apply h.tight hlt
  · -- a list of level one has rows of level one only
    obtain ⟨r, hr⟩ := List.exists_mem_of_ne_nil rows hne
    have hpos := h.cap_pos r hr
    have hle := h.cap_le r hr
    use r, hr
    omega

/-- A skiplist that keeps the invariant consists of the nodes of its rows. -/
theorem wellFormed (h : SlInv s hd rows) :
  WellFormed s (rows.map (Row.node s.mem))
  := by
  constructor
  case ascending =>
    rw [List.pairwise_map]
    apply h.sorted.imp_of_mem
    intro r r' hr hr' hlt
    rw [(h.node_eq hr).2.1, (h.node_eq hr').2.1]
    apply (kvKeycmp_neg_iff _ _).mpr hlt
  case all =>
    rw [← h.filter_zero]
    apply h.levelList (by decide)
  case levels =>
    intro i hi
    apply h.levelList hi
  case level_nil =>
    intro hnil
    obtain rfl := List.map_eq_nil_iff.mp hnil
    apply h.level_nil
  case level_le =>
    intro x hx
    obtain ⟨r, hr, rfl⟩ := List.mem_map.mp hx
    rw [(h.node_eq hr).2.2]
    apply h.cap_le r hr
  case level_mem =>
    intro hne
    obtain ⟨r, hr, hcap⟩ := h.exists_cap_eq (by simpa using hne)
    use r.node s.mem, List.mem_map_of_mem hr
    rw [(h.node_eq hr).2.2, hcap]
  case head_null =>
    intro i hi hmax
    rw [h.nextAt_head hmax, h.towerNext_high hi]
  case count_eq =>
    rw [h.count_eq, List.length_map]

end SlInv

/-- A skiplist that holds a map is well formed. -/
theorem SlHolds.wellFormed {R : Type} {s : Skiplist R} {m : Contents} (h : SlHolds s m) :
  ∃ nodes, WellFormed s nodes
  := by
  obtain ⟨hd, rows, hinv, -⟩ := h
  use rows.map (Row.node s.mem)
  apply hinv.wellFormed

/-! ## Runs -/

section Runs

variable {R : Type} (rand : R → ℕ × R) (fuel : ℕ)

/-- The skiplist after a sequence of calls. -/
def slAfter (s : Skiplist R) : List SlCall → Option (Skiplist R)
  | [] => some s
  | call :: calls => do
    let (_, s) ← slStep rand fuel s call
    slAfter s calls

end Runs

/-- A sequence of calls on a skiplist that holds a map succeeds and leaves one that holds the
map after the calls. -/
theorem slAfter_spec {R : Type} {rand : R → ℕ × R}
    (hrand : ∀ r, 0 < (rand r).1 ∧ (rand r).1 ≤ slMaxLevel) (calls : List SlCall)
    {s : Skiplist R} {m : Contents} (h : SlHolds s m) {fuel : ℕ}
    (hfuel : m.entries.length + calls.length < fuel) :
  ∃ s', slAfter rand fuel s calls = some s' ∧ SlHolds s' (calls.foldl SlCall.apply m)
  := by
  induction calls generalizing s m with
  | nil =>
    use s, rfl
    apply h
  | cons call calls ih =>
    obtain ⟨_, -, hstep⟩ := slStep_spec m call
    have hlen := call.length_apply_le m
    simp only [List.length_cons] at hfuel
    obtain ⟨s₁, hrun, h₁⟩ := hstep hrand h (show m.entries.length + 1 < fuel by omega)
    obtain ⟨s', hrest, h'⟩ := ih h₁ (by omega)
    use s'
    simp only [slAfter, hrun, hrest, Option.bind_eq_bind, Option.bind_some, List.foldl_cons]
    exact ⟨trivial, h'⟩

/-- Every sequence of calls on a newly opened skiplist succeeds and leaves a well-formed
skiplist, whatever heights from `1` to `slMaxLevel` are drawn. -/
theorem slAfter_wellFormed {R : Type} (rand : R → ℕ × R)
    (hrand : ∀ r, 0 < (rand r).1 ∧ (rand r).1 ≤ slMaxLevel) (rng : R) (calls : List SlCall)
    (fuel : ℕ) (hfuel : calls.length < fuel) :
  ∃ s nodes, slAfter rand fuel (skiplistOpen rng) calls = some s ∧ WellFormed s nodes
  := by
  have hempty : (OrderedMap.empty : Contents).entries.length + calls.length < fuel := by
    rw [show (OrderedMap.empty : Contents).entries.length = 0 from rfl, Nat.zero_add]
    apply hfuel
  obtain ⟨s, hrun, h⟩ := slAfter_spec hrand calls (SlHolds.open rng) hempty
  obtain ⟨nodes, hnodes⟩ := h.wellFormed
  use s, nodes

/-- Three puts and a delete with the heights two, five and one. -/
theorem slAfter_wellFormed_example :
  ∃ s nodes, slAfter (fun r : ℕ => (if r = 0 then 2 else if r = 1 then 5 else 1, r + 1)) 5
      (skiplistOpen 0) [.put [2] [7], .put [1] [8], .put [3] [], .del [1]] = some s ∧
    WellFormed s nodes
  := by
  apply slAfter_wellFormed _ _ 0 [.put [2] [7], .put [1] [8], .put [3] [], .del [1]] 5 (by decide)
  intro r
  dsimp only
  split
  · decide
  · split <;> decide

end Keybench
