import Keybench.Skiplist.Invariant

/-!
# Editing the list

The loops of `sl_put` and `sl_del` edit one level at a time.  While the linking loop has
done the levels below `i`, the new row is linked on exactly those (`Row.upTo`); while the
unlinking loop has done the levels below `i`, the removed row is linked on exactly the others
(`Row.downFrom`).  Both loops keep `Linked` at every step, and end in a list that is fully
linked again.
-/

namespace Keybench

/-- `r` while it is linked on the levels below `i` only. -/
def Row.upTo (r : Row) (i : ℕ) : Row :=
  { r with on := fun j => decide (j < i) }

/-- `r` while it is unlinked on the levels below `i`. -/
def Row.downFrom (r : Row) (i : ℕ) : Row :=
  { r with on := fun j => decide (i ≤ j ∧ j < r.cap) }

/-- The last row linked on a level before a position is in the list. -/
theorem LastOn.mem {i : ℕ} {rows : List Row} {p : Row} (h : LastOn i rows p) :
  p ∈ rows
  := by
  obtain ⟨before, after, rfl, -, -⟩ := h
  simp

/-- Reading the pointer of the last row linked on a level gives the next row linked there
after the position. -/
theorem Linked.nextAt_lastOn {mem : Mem} {rows post : List Row} {i : ℕ} {p : Row}
    (h : Linked mem (rows ++ post)) (hp : LastOn i rows p) :
  nextAt mem p.addr i = some (towerNext post i)
  := by
  obtain ⟨before, after, rfl, hpi, hafter⟩ := hp
  simp only [List.append_assoc, List.cons_append] at h
  rw [h.cell.nextAt_eq hpi, towerNext_append_off hafter]

/-- Writing a pointer of a row on a level it is not linked on keeps the list, and prepares
the row to be linked there. -/
theorem Linked.set_own {mem : Mem} {rows post : List Row} {r : Row} {i : ℕ}
    (h : Linked mem (rows ++ r.upTo i :: post))
    (hnodup : ((rows ++ r :: post).map Row.addr).Nodup) (hi : i < r.cap) :
  ∃ mem', setNext mem r.addr i (towerNext post i) = some mem' ∧
    Linked mem' (rows ++ r.upTo i :: post) ∧ CellOk mem' (r.upTo (i + 1)) post
  := by
  obtain ⟨next, hcell, hnext⟩ := h.cell
  have hne : ∀ x ∈ rows ++ post, x.addr ≠ r.addr := fun x hx => addr_ne_of_nodup hnodup hx
  have hsame : ∀ a, a ≠ r.addr → Function.update mem r.addr
      (some ⟨r.key, r.val, r.cap, Function.update next i (towerNext post i)⟩) a = mem a :=
    fun a ha => Function.update_of_ne ha _ _
  have hown : ∀ j ≤ i, j < r.cap ∧ Function.update next i (towerNext post i) j = towerNext post j := by
    intro j hj
    rcases Nat.lt_or_eq_of_le hj with hj | rfl
    · rw [Function.update_of_ne hj.ne]
      apply hnext j (decide_eq_true hj)
    · rw [Function.update_self]
      exact ⟨hi, rfl⟩
  use Function.update mem r.addr
    (some ⟨r.key, r.val, r.cap, Function.update next i (towerNext post i)⟩)
  and_intros
  · apply setNext_eq hcell hi
  · apply h.replace_tail
    · constructor
      · use Function.update next i (towerNext post i)
        constructor
        · apply Function.update_self
        · intro j hj
          apply hown j (of_decide_eq_true hj).le
      · apply (h.drop rows).2.frame
        intro x hx
        apply hsame _ (hne x (by simp [hx]))
    · intro x hx
      apply hsame _ (hne x (by simp [hx]))
    · intro _ _ _ _ _ _ _
      rfl
  · use Function.update next i (towerNext post i)
    constructor
    · apply Function.update_self
    · intro j hj
      apply hown j (Nat.le_of_lt_succ (of_decide_eq_true hj))

/-- The linking loop links the new row on the levels it has done. -/
theorem slLink_spec {mem : Mem} {rows post : List Row} {r : Row} {update : Update}
    (h : Linked mem (rows ++ r.upTo 0 :: post))
    (hnodup : ((rows ++ r :: post).map Row.addr).Nodup) {n : ℕ} (hn : n ≤ r.cap)
    (hupdate : ∀ i < n, ∃ p, update i = some p.addr ∧ LastOn i rows p) :
  ∃ mem', slLink update r.addr mem n = some mem' ∧ Linked mem' (rows ++ r.upTo n :: post)
  := by
  induction n with
  | zero =>
    use mem
    exact ⟨rfl, h⟩
  | succ n ih =>
    obtain ⟨mem₁, hrun, h₁⟩ := ih (by omega) (fun i hi => hupdate i (by omega))
    obtain ⟨p, hp, hlast⟩ := hupdate n (Nat.lt_succ_self n)
    have hoff : (r.upTo n).on n = false := by
      simp [Row.upTo]
    have hread := h₁.nextAt_lastOn hlast
    rw [towerNext_cons_off hoff] at hread
    obtain ⟨mem₂, hset, h₂, hcell⟩ := h₁.set_own hnodup (Nat.lt_of_succ_le hn)
    have hon : ∀ j, j ≠ n → (r.upTo (n + 1)).on j = (r.upTo n).on j := by
      intro j hj
      simp only [Row.upTo, decide_eq_decide]
      omega
    have htarget : some r.addr = towerNext (r.upTo (n + 1) :: post) n := by
      symm
      apply towerNext_cons_on
      simp [Row.upTo]
    have hnodup' : ((rows ++ r.upTo n :: post).map Row.addr).Nodup := by
      simpa [Row.upTo] using hnodup
    obtain ⟨mem₃, hset', h₃, -⟩ := h₂.set_next (r.upTo (n + 1)) hnodup' hlast rfl hon hcell
      htarget
    use mem₃
    constructor
    · simp only [slLink, hrun, hp, hread, hset, hset', Option.bind_eq_bind, Option.bind_some]
    · apply h₃

/-- The unlinking loop unlinks the row on the levels it has done. -/
theorem slUnlink_spec {mem : Mem} {rows post : List Row} {r : Row} {update : Update}
    (h : Linked mem (rows ++ r.downFrom 0 :: post))
    (hnodup : ((rows ++ r :: post).map Row.addr).Nodup) {n : ℕ}
    (hupdate : ∀ i < n, ∃ p, update i = some p.addr ∧ LastOn i rows p) :
  ∃ mem', slUnlink update r.addr mem n = some mem' ∧ Linked mem' (rows ++ r.downFrom n :: post)
  := by
  induction n with
  | zero =>
    use mem
    exact ⟨rfl, h⟩
  | succ n ih =>
    obtain ⟨mem₁, hrun, h₁⟩ := ih (fun i hi => hupdate i (by omega))
    obtain ⟨p, hp, hlast⟩ := hupdate n (Nat.lt_succ_self n)
    have hread := h₁.nextAt_lastOn hlast
    by_cases hcap : n < r.cap
    · -- the row is linked on level `n`, so the pointer leads to it
      have hon : (r.downFrom n).on n = true := by
        simp [Row.downFrom, hcap]
      have hoff : (r.downFrom (n + 1)).on n = false := by
        simp [Row.downFrom]
      rw [towerNext_cons_on hon] at hread
      have hown := h₁.cell.nextAt_eq hon
      have hcell : CellOk mem₁ (r.downFrom (n + 1)) post := by
        obtain ⟨next, hcell, hnext⟩ := h₁.cell
        use next, hcell
        intro j hj
        apply hnext j
        simp only [Row.downFrom, decide_eq_true_eq] at hj ⊢
        omega
      have hsame : ∀ j, j ≠ n → (r.downFrom (n + 1)).on j = (r.downFrom n).on j := by
        intro j hj
        simp only [Row.downFrom, decide_eq_decide]
        omega
      have htarget : towerNext post n = towerNext (r.downFrom (n + 1) :: post) n := by
        rw [towerNext_cons_off hoff]
      have hnodup' : ((rows ++ r.downFrom n :: post).map Row.addr).Nodup := by
        simpa [Row.downFrom] using hnodup
      obtain ⟨mem₂, hset, h₂, -⟩ := h₁.set_next (r.downFrom (n + 1)) hnodup' hlast rfl hsame
        hcell htarget
      have hown' : nextAt mem₁ r.addr n = some (towerNext post n) := hown
      use mem₂
      constructor
      · simp only [slUnlink, hrun, hp, hread, hown', hset, Row.downFrom, Option.bind_eq_bind,
          Option.bind_some, if_true]
      · apply h₂
    · -- the row was never linked on level `n`, and the pointer leads past it
      have hsame : r.downFrom (n + 1) = r.downFrom n := by
        simp only [Row.downFrom, Row.mk.injEq, true_and]
        funext j
        simp only [decide_eq_decide]
        omega
      have hoff : (r.downFrom n).on n = false := by
        simp [Row.downFrom, hcap]
      rw [towerNext_cons_off hoff] at hread
      have hne : towerNext post n ≠ some r.addr := by
        intro heq
        obtain ⟨x, hx, haddr⟩ := Option.map_eq_some_iff.mp heq
        have hmem := List.mem_of_find?_eq_some hx
        apply addr_ne_of_nodup hnodup (List.mem_append_right rows hmem) haddr
      use mem₁
      constructor
      · simp only [slUnlink, hrun, hp, hread, hne, Option.bind_eq_bind, Option.bind_some, if_false]
      · rw [hsame]
        apply h₁

/-- The level shrinks to the greatest level of a row, or to one. -/
theorem slShrink_spec {mem : Mem} {hd : Row} {rows : List Row} (h : Linked mem (hd :: rows))
    (hhd : ∀ i < slMaxLevel, hd.on i = true)
    (hon : ∀ r ∈ rows, ∀ i, r.on i = decide (i < r.cap)) :
    ∀ {lvl : ℕ}, 0 < lvl → lvl ≤ slMaxLevel → (∀ r ∈ rows, r.cap ≤ lvl) →
      ∃ lvl', slShrink mem hd.addr lvl = some lvl' ∧ 0 < lvl' ∧ lvl' ≤ lvl ∧
        (∀ r ∈ rows, r.cap ≤ lvl') ∧ (1 < lvl' → ∃ r ∈ rows, r.cap = lvl')
  | 0, hpos, _, _ => absurd hpos (Nat.lt_irrefl 0)
  | 1, _, _, hcap => by
    use 1
    simp [slShrink]
    apply hcap
  | lvl + 2, _, hle, hcap => by
    have hread := h.1.nextAt_eq (hhd (lvl + 1) (by omega))
    cases hfind : rows.find? (fun r => r.on (lvl + 1)) with
    | none =>
      have hcap' : ∀ r ∈ rows, r.cap ≤ lvl + 1 := by
        intro r hr
        have hoff := List.find?_eq_none.mp hfind r hr
        rw [hon r hr, decide_eq_true_eq] at hoff
        omega
      obtain ⟨lvl', hrun, hpos, hle', hrest⟩ :=
        slShrink_spec h hhd hon (Nat.succ_pos lvl) (by omega) hcap'
      use lvl'
      have hnone : towerNext rows (lvl + 1) = none := by
        simp [towerNext, hfind]
      simp only [slShrink, hread, hnone, Option.bind_eq_bind, Option.bind_some]
      exact ⟨hrun, hpos, by omega, hrest⟩
    | some r =>
      use lvl + 2
      have hsome : towerNext rows (lvl + 1) = some r.addr := by
        simp [towerNext, hfind]
      have hrun : slShrink mem hd.addr (lvl + 2) = some (lvl + 2) := by
        simp only [slShrink, hread, hsome, Option.bind_eq_bind, Option.bind_some]
      have hr := List.mem_of_find?_eq_some hfind
      have hrcap : lvl + 1 < r.cap := by
        have hron := List.find?_some hfind
        simpa [hon r hr] using hron
      have hrle := hcap r hr
      use hrun, by omega, le_rfl, hcap
      intro _
      use r, hr
      omega

/-- Raising the list's level fills the rest of `update` with the head. -/
theorem slRaise_spec (head : Addr) (update : Update) {lo n : ℕ} (h : lo + n ≤ slMaxLevel) :
  ∃ update', slRaise head lo n update = some update' ∧
    (∀ i, lo ≤ i → i < lo + n → update' i = some head) ∧ ∀ i < lo, update' i = update i
  := by
  induction n with
  | zero =>
    use update
    use rfl
    constructor
    · intro i _ _
      omega
    · intro _ _
      rfl
  | succ n ih =>
    obtain ⟨u, hrun, hin, hout⟩ := ih (by omega)
    use Function.update u (lo + n) (some head)
    and_intros
    · have hlt : lo + n < slMaxLevel := by omega
      simp only [slRaise, hrun, setUpdate, hlt, Option.bind_eq_bind, Option.bind_some, if_true]
    · intro i hlo hi
      by_cases heq : i = lo + n
      · rw [heq, Function.update_self]
      · rw [Function.update_of_ne heq]
        apply hin i hlo (by omega)
    · intro i hi
      rw [Function.update_of_ne (by omega)]
      apply hout i hi

end Keybench
