import Keybench.Skiplist.Ops

/-!
# The list of a skiplist's heap

`Linked mem rows` says that the cells of `mem` hold the rows `rows` and that on every level
each row linked there points to the next row linked on that level.  A row records on which
levels it is linked (`on`), so a row in the middle of being linked or unlinked is described
by the same predicate as one at rest.

* `Linked.set_next` is the step of both loops that edit the list: after one pointer of the
  last row linked on level `i` before a row `m` is redirected, the heap holds the same rows
  with `m` linked, or no longer linked, on level `i`.
* `slDescend_spec` says what a search of a linked heap finds.
-/

namespace Keybench

/-- A row of the list: its cell's address, key, value and level, and the levels on which it
is linked. -/
structure Row where
  addr : Addr
  key : Bytes
  val : Bytes
  cap : ℕ
  on : ℕ → Bool

/-- The entry a row stores. -/
def Row.entry (r : Row) : Bytes × Bytes := (r.key, r.val)

/-- The address of the first of `rows` linked on level `i`. -/
def towerNext (rows : List Row) (i : ℕ) : Option Addr :=
  (rows.find? (fun r => r.on i)).map Row.addr

/-- The cell of `r` holds the row, its level covers the levels `r` is linked on, and on each
of these it points to the first of `post` linked there. -/
def CellOk (mem : Mem) (r : Row) (post : List Row) : Prop :=
  ∃ next : ℕ → Option Addr, mem r.addr = some ⟨r.key, r.val, r.cap, next⟩ ∧
    ∀ i, r.on i = true → i < r.cap ∧ next i = towerNext post i

/-- The heap holds the rows, each linked to the rows after it. -/
def Linked (mem : Mem) : List Row → Prop
  | [] => True
  | r :: post => CellOk mem r post ∧ Linked mem post

/-- `p` is the last of `rows` linked on level `i`. -/
def LastOn (i : ℕ) (rows : List Row) (p : Row) : Prop :=
  ∃ before after, rows = before ++ p :: after ∧ p.on i = true ∧ ∀ r ∈ after, r.on i = false

/-! ## Next rows -/

theorem towerNext_cons_on {r : Row} {i : ℕ} (h : r.on i = true) (rows : List Row) :
  towerNext (r :: rows) i = some r.addr
  := by
  simp [towerNext, h]

theorem towerNext_cons_off {r : Row} {i : ℕ} (h : r.on i = false) (rows : List Row) :
  towerNext (r :: rows) i = towerNext rows i
  := by
  simp [towerNext, h]

/-- Rows that are not linked on a level are skipped on it. -/
theorem towerNext_append_off {rows : List Row} {i : ℕ} (h : ∀ r ∈ rows, r.on i = false)
    (post : List Row) :
  towerNext (rows ++ post) i = towerNext post i
  := by
  have hnone : rows.find? (fun r => r.on i) = none := by
    apply List.find?_eq_none.mpr
    intro r hr
    simp [h r hr]
  simp [towerNext, hnone]

/-- Rows in front keep two lists with the same next row on a level alike. -/
theorem towerNext_append_congr {post post' : List Row} {i : ℕ}
    (h : towerNext post i = towerNext post' i) (rows : List Row) :
  towerNext (rows ++ post) i = towerNext (rows ++ post') i
  := by
  induction rows with
  | nil => apply h
  | cons r rows ih =>
    cases hr : r.on i with
    | true => rw [List.cons_append, List.cons_append, towerNext_cons_on hr, towerNext_cons_on hr]
    | false =>
      rw [List.cons_append, List.cons_append, towerNext_cons_off hr, towerNext_cons_off hr, ih]

/-- Replacing a row by one at the same address keeps the next row on every level that both
or neither are linked on. -/
theorem towerNext_replace {m m' : Row} {i : ℕ} (haddr : m'.addr = m.addr)
    (hon : m'.on i = m.on i) (rows post : List Row) :
  towerNext (rows ++ m' :: post) i = towerNext (rows ++ m :: post) i
  := by
  apply towerNext_append_congr
  cases h : m.on i with
  | true => rw [towerNext_cons_on (hon.trans h), towerNext_cons_on h, haddr]
  | false => rw [towerNext_cons_off (hon.trans h), towerNext_cons_off h]

/-- The rows after one linked on a level do not matter for the next row on it. -/
theorem towerNext_hidden {p : Row} {i : ℕ} (h : p.on i = true) (rows post post' : List Row) :
  towerNext (rows ++ p :: post) i = towerNext (rows ++ p :: post') i
  := by
  apply towerNext_append_congr
  rw [towerNext_cons_on h, towerNext_cons_on h]

/-! ## Cells -/

/-- Reading a pointer of a linked row yields the next row on that level. -/
theorem CellOk.nextAt_eq {mem : Mem} {r : Row} {post : List Row} (h : CellOk mem r post) {i : ℕ}
    (hi : r.on i = true) :
  nextAt mem r.addr i = some (towerNext post i)
  := by
  obtain ⟨next, hcell, hnext⟩ := h
  obtain ⟨hcap, heq⟩ := hnext i hi
  simp [nextAt, hcell, hcap, heq]

/-- A cell is kept where the heap is. -/
theorem CellOk.frame {mem mem' : Mem} {r : Row} {post : List Row} (h : CellOk mem r post)
    (heq : mem' r.addr = mem r.addr) :
  CellOk mem' r post
  := by
  obtain ⟨next, hcell, hnext⟩ := h
  use next
  rw [heq]
  exact ⟨hcell, hnext⟩

/-- A cell stays right when the next rows on its levels stay the same. -/
theorem CellOk.congr {mem : Mem} {r : Row} {post post' : List Row} (h : CellOk mem r post)
    (heq : ∀ i, r.on i = true → towerNext post' i = towerNext post i) :
  CellOk mem r post'
  := by
  obtain ⟨next, hcell, hnext⟩ := h
  use next, hcell
  intro i hi
  rw [heq i hi]
  apply hnext i hi

/-- The last rows of a linked list are linked. -/
theorem Linked.drop {mem : Mem} (before : List Row) {after : List Row}
    (h : Linked mem (before ++ after)) :
  Linked mem after
  := by
  induction before with
  | nil => apply h
  | cons r before ih => apply ih h.2

/-- Every row of a linked list has its cell. -/
theorem Linked.cell {mem : Mem} {before : List Row} {r : Row} {after : List Row}
    (h : Linked mem (before ++ r :: after)) :
  CellOk mem r after
  := (h.drop before).1

/-- A linked list is kept where the heap is. -/
theorem Linked.frame {mem mem' : Mem} {rows : List Row} (h : Linked mem rows)
    (heq : ∀ r ∈ rows, mem' r.addr = mem r.addr) :
  Linked mem' rows
  := by
  induction rows with
  | nil => trivial
  | cons r rows ih =>
    constructor
    · apply h.1.frame (heq r List.mem_cons_self)
    · apply ih h.2 (fun s hs => heq s (List.mem_cons_of_mem r hs))

/-- Rows before a part of the list stay linked when that part is replaced by one whose next
rows are the same. -/
theorem Linked.replace_tail {mem mem' : Mem} {before after after' : List Row}
    (h : Linked mem (before ++ after)) (hafter : Linked mem' after')
    (heq : ∀ r ∈ before, mem' r.addr = mem r.addr)
    (hnext : ∀ r ∈ before, ∀ i, r.on i = true → ∀ l r', before = l ++ r :: r' →
      towerNext (r' ++ after') i = towerNext (r' ++ after) i) :
  Linked mem' (before ++ after')
  := by
  induction before with
  | nil => apply hafter
  | cons r before ih =>
    constructor
    · apply (h.1.frame (heq r List.mem_cons_self)).congr
      intro i hi
      apply hnext r List.mem_cons_self i hi [] before rfl
    · apply ih h.2 (fun s hs => heq s (List.mem_cons_of_mem r hs))
      intro s hs i hi l r' hl
      apply hnext s (List.mem_cons_of_mem r hs) i hi (r :: l) r'
      rw [hl, List.cons_append]

/-! ## Redirecting one pointer -/

/-- The other rows of a list without repeated addresses are not at the address of `r`. -/
theorem addr_ne_of_nodup {rows post : List Row} {r : Row}
    (h : ((rows ++ r :: post).map Row.addr).Nodup) {x : Row} (hx : x ∈ rows ++ post) :
  x.addr ≠ r.addr
  := by
  rw [List.map_append, List.map_cons, List.nodup_append, List.nodup_cons] at h
  obtain ⟨-, ⟨hpost, -⟩, hdisj⟩ := h
  rcases List.mem_append.mp hx with hx | hx
  · apply hdisj x.addr (List.mem_map_of_mem hx) r.addr List.mem_cons_self
  · rintro heq
    apply hpost
    rw [← heq]
    apply List.mem_map_of_mem hx

/-- Writing a pointer of a cell that exists. -/
theorem setNext_eq {mem : Mem} {r : Row} {next : ℕ → Option Addr}
    (hcell : mem r.addr = some ⟨r.key, r.val, r.cap, next⟩) {i : ℕ} (hi : i < r.cap)
    (t : Option Addr) :
  setNext mem r.addr i t
    = some (Function.update mem r.addr
        (some ⟨r.key, r.val, r.cap, Function.update next i t⟩))
  := by
  simp [setNext, hcell, hi]

/-- Redirecting the pointer on level `i` of the last row linked there before `m` links `m` on
that level, or unlinks it, according to the target. -/
theorem Linked.set_next {mem : Mem} {rows : List Row} {m : Row} (m' : Row) {post : List Row}
    {i : ℕ} {p : Row} {t : Option Addr}
    (h : Linked mem (rows ++ m :: post)) (hnodup : ((rows ++ m :: post).map Row.addr).Nodup)
    (hp : LastOn i rows p) (haddr : m'.addr = m.addr) (hon : ∀ j, j ≠ i → m'.on j = m.on j)
    (hcell : CellOk mem m' post) (ht : t = towerNext (m' :: post) i) :
  ∃ mem', setNext mem p.addr i t = some mem' ∧ Linked mem' (rows ++ m' :: post) ∧
    ∀ a, a ≠ p.addr → mem' a = mem a
  := by
  obtain ⟨before, after, rfl, hpi, hafter⟩ := hp
  simp only [List.append_assoc, List.cons_append] at h hnodup ⊢
  obtain ⟨next, hpcell, hpnext⟩ := h.cell
  have hcap := (hpnext i hpi).1
  have hsame : ∀ a, a ≠ p.addr →
      Function.update mem p.addr (some ⟨p.key, p.val, p.cap, Function.update next i t⟩) a = mem a :=
    fun a ha => Function.update_of_ne ha _ _
  have hne : ∀ r ∈ before ++ (after ++ m :: post), r.addr ≠ p.addr :=
    fun r hr => addr_ne_of_nodup hnodup hr
  use Function.update mem p.addr (some ⟨p.key, p.val, p.cap, Function.update next i t⟩)
  and_intros
  · apply setNext_eq hpcell hcap
  · -- the rows from `p` on come first, then those before it
    apply Linked.replace_tail h
    · constructor
      · use Function.update next i t
        constructor
        · apply Function.update_self
        · intro j hj
          use (hpnext j hj).1
          by_cases hji : j = i
          · subst hji
            rw [Function.update_self, ht, towerNext_append_off hafter]
          · rw [Function.update_of_ne hji, (hpnext j hj).2, towerNext_replace haddr (hon j hji)]
      · apply Linked.replace_tail (h.drop before).2
        · constructor
          · apply hcell.frame
            apply hsame
            rw [haddr]
            apply hne m (by simp)
          · apply ((h.drop before).2.drop after).2.frame
            intro r hr
            apply hsame _ (hne r (by simp [hr]))
        · intro r hr
          apply hsame _ (hne r (by simp [hr]))
        · intro r hr j hj l r' hl
          apply towerNext_replace haddr
          apply hon
          rintro rfl
          rw [hafter r hr] at hj
          apply Bool.false_ne_true hj
    · intro r hr
      apply hsame _ (hne r (by simp [hr]))
    · intro r _ j _ l r' _
      by_cases hji : j = i
      · subst hji
        apply towerNext_hidden hpi
      · have hrw := towerNext_replace haddr (hon j hji) (r' ++ p :: after) post
        simp only [List.append_assoc, List.cons_append] at hrw
        apply hrw
  · apply hsame

/-- A row that is linked on no level can be left out. -/
theorem Linked.leave_out {mem : Mem} {rows : List Row} {m : Row} {post : List Row}
    (h : Linked mem (rows ++ m :: post)) (hoff : ∀ i, m.on i = false) :
  Linked mem (rows ++ post)
  := by
  apply h.replace_tail (h.drop rows).2
  · intro _ _
    rfl
  · intro r _ i _ l r' _
    apply towerNext_append_congr
    symm
    apply towerNext_cons_off (hoff i)

/-- A row that is linked on no level can be put in front of the rows after it. -/
theorem Linked.put_in {mem : Mem} {rows : List Row} {m : Row} {post : List Row}
    (h : Linked mem (rows ++ post)) (hoff : ∀ i, m.on i = false) (hcell : CellOk mem m post) :
  Linked mem (rows ++ m :: post)
  := by
  have htail : Linked mem (m :: post) := ⟨hcell, h.drop rows⟩
  apply h.replace_tail htail
  · intro _ _
    rfl
  · intro r _ i _ l r' _
    apply towerNext_append_congr
    apply towerNext_cons_off (hoff i)

/-! ## Searching -/

/-- The rows after any row come after the first. -/
theorem mem_tail_of_split {rows before after : List Row} {g r : Row}
    (h : rows = before ++ g :: after) (hr : r ∈ after) :
  r ∈ rows.tail
  := by
  subst h
  cases before with
  | nil => apply hr
  | cons s before => simp [hr]

section Search

variable {mem : Mem} {k : Bytes} {below above : List Row}

/-- On one level, a search goes to the last row linked there among those with a smaller
key. -/
theorem slWalk_spec (h : Linked mem (below ++ above)) (hbelow : ∀ r ∈ below.tail, r.key < k)
    (habove : ∀ r ∈ above, k ≤ r.key) {i fuel : ℕ} :
    ∀ {before : List Row} {g : Row} {after : List Row}, below = before ++ g :: after →
      g.on i = true → after.length < fuel →
      ∃ p, slWalk mem k i fuel g.addr = some p.addr ∧ LastOn i below p
  := by
  induction fuel with
  | zero =>
    intro _ _ _ _ _ hlt
    apply absurd hlt (Nat.not_lt_zero _)
  | succ fuel ih =>
    intro before g after hsplit hgi hlt
    have hg : Linked mem (before ++ g :: (after ++ above)) := by
      simpa [hsplit] using h
    have hnext := hg.cell.nextAt_eq hgi
    cases hfind : after.find? (fun r => r.on i) with
    | some y =>
      -- the next row on this level has a smaller key
      have hy : towerNext (after ++ above) i = some y.addr := by
        rw [towerNext, List.find?_append, hfind]
        rfl
      obtain ⟨hyi, l, r, rfl, -⟩ := List.find?_eq_some_iff_append.mp hfind
      have hycell : Linked mem ((before ++ g :: l) ++ y :: (r ++ above)) := by
        simpa using hg
      obtain ⟨next, hcell, -⟩ := hycell.cell
      have hykey : kvKeycmp y.key k < 0 :=
        (kvKeycmp_neg_iff _ _).mpr (hbelow y (mem_tail_of_split hsplit (by simp)))
      have hwalk := ih (show below = (before ++ g :: l) ++ y :: r by simp [hsplit]) hyi
        (by simp at hlt; omega)
      simp only [slWalk, hnext, hy, hcell, hykey, Option.bind_eq_bind, Option.bind_some, if_true]
      apply hwalk
    | none =>
      have hoff : ∀ r ∈ after, r.on i = false := by
        intro r hr
        simpa using List.find?_eq_none.mp hfind r hr
      use g
      constructor
      · rw [towerNext_append_off hoff] at hnext
        cases hab : above.find? (fun r => r.on i) with
        | none =>
          have hy : towerNext above i = none := by
            simp [towerNext, hab]
          simp only [slWalk, hnext, hy, Option.bind_eq_bind, Option.bind_some]
        | some y =>
          have hy : towerNext above i = some y.addr := by
            simp [towerNext, hab]
          obtain ⟨-, l, r, rfl, -⟩ := List.find?_eq_some_iff_append.mp hab
          have hycell : Linked mem ((below ++ l) ++ y :: r) := by
            simpa using h
          obtain ⟨next, hcell, -⟩ := hycell.cell
          have hykey : ¬ kvKeycmp y.key k < 0 :=
            not_lt.mpr ((kvKeycmp_nonneg_iff _ _).mpr (habove y (by simp)))
          simp only [slWalk, hnext, hy, hcell, hykey, Option.bind_eq_bind, Option.bind_some,
            if_false]
      · use before, after

/-- A search over the levels below `n` fills `update` there with the last rows linked on each
level among those with a smaller key, and ends at the one on level zero. -/
theorem slDescend_spec (h : Linked mem (below ++ above)) (hbelow : ∀ r ∈ below.tail, r.key < k)
    (habove : ∀ r ∈ above, k ≤ r.key)
    (hdown : ∀ r ∈ below, ∀ i j, i ≤ j → r.on j = true → r.on i = true)
    {fuel : ℕ} (hfuel : below.length < fuel) {n : ℕ} :
    ∀ {g : Row} (update : Update), n ≤ slMaxLevel → g ∈ below → (∀ i < n, g.on i = true) →
      ∃ x update', slDescend mem k fuel n g.addr update = some (x, update') ∧
        (∀ i < n, ∃ p, update' i = some p.addr ∧ LastOn i below p) ∧
        (∀ i, n ≤ i → update' i = update i) ∧
        (0 < n → ∃ p, x = p.addr ∧ LastOn 0 below p)
  := by
  induction n with
  | zero =>
    intro g update _ _ _
    use g.addr, update
    simp [slDescend]
  | succ n ih =>
    intro g update hn hg hgon
    obtain ⟨before, after, hsplit⟩ := List.append_of_mem hg
    have hafter : after.length < fuel := by
      have hlen := congrArg List.length hsplit
      simp at hlen
      omega
    obtain ⟨p, hwalk, hp⟩ := slWalk_spec h hbelow habove hsplit (hgon n (Nat.lt_succ_self n)) hafter
    obtain ⟨before', after', hsplit', hpn, -⟩ := id hp
    have hpmem : p ∈ below := by
      simp [hsplit']
    have hset : setUpdate update n p.addr = some (Function.update update n (some p.addr)) := by
      simp only [setUpdate, Nat.lt_of_succ_le hn, if_true]
    obtain ⟨x, update', hrun, hlow, hhigh, hx⟩ :=
      ih (g := p) (Function.update update n (some p.addr)) (by omega) hpmem
        (fun i hi => hdown p hpmem i n hi.le hpn)
    use x, update'
    and_intros
    · simp only [slDescend, hwalk, hset, Option.bind_eq_bind, Option.bind_some]
      apply hrun
    · intro i hi
      rcases Nat.lt_succ_iff_lt_or_eq.mp hi with hi | rfl
      · apply hlow i hi
      · use p
        constructor
        · rw [hhigh i le_rfl, Function.update_self]
        · apply hp
    · intro i hi
      rw [hhigh i (by omega), Function.update_of_ne (by omega)]
    · intro _
      rcases Nat.eq_zero_or_pos n with rfl | hpos
      · simp only [slDescend, Option.some.injEq, Prod.mk.injEq] at hrun
        use p
        exact ⟨hrun.1.symm, hp⟩
      · apply hx hpos

/-- The search without `update` ends where the search with it does. -/
theorem slSeek_of_slDescend {fuel n : ℕ} {x y : Addr} {update update' : Update}
    (h : slDescend mem k fuel n x update = some (y, update')) :
  slSeek mem k fuel n x = some y
  := by
  induction n generalizing x update with
  | zero =>
    simp only [slDescend, Option.some.injEq, Prod.mk.injEq] at h
    simp [slSeek, h.1]
  | succ n ih =>
    simp only [slDescend, Option.bind_eq_bind, Option.bind_eq_some_iff] at h
    obtain ⟨z, hwalk, u, -, hrest⟩ := h
    simp only [slSeek, hwalk, Option.bind_eq_bind, Option.bind_some]
    apply ih hrest

end Search

end Keybench
