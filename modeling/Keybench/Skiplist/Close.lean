import Keybench.Skiplist.Draws
import Keybench.Skiplist.Threads

/-!
# Closing a skiplist

`sl_close` frees the nodes along level zero and then the head.  The live cells are the head and
one for each key (`SlLive`), so that after any calls of any threads it frees every cell once and
leaves none (`threads_close`).
-/

namespace Keybench

/-- `free` of a cell that is live. -/
def freeCell (mem : Mem) (a : Addr) : Option Mem :=
  (mem a).map fun _ => Function.update mem a none

/-- The loop of `sl_close` from the cell `x` on: the next cell is read before `x` is freed. -/
def slCloseLoop : ℕ → Option Addr → Mem → Option Mem
  | 0, _, _ => none
  | _ + 1, none, mem => some mem
  | fuel + 1, some x, mem => do
    let nx ← nextAt mem x 0
    let mem ← freeCell mem x
    slCloseLoop fuel nx mem

/-- `sl_close`: the heap of the nodes it leaves.  The lock and the record of the list, which it
destroys at its end, are not in that heap. -/
def slClose {R : Type} (fuel : ℕ) (s : Skiplist R) : Option Mem := do
  let x ← nextAt s.mem s.head 0
  let mem ← slCloseLoop fuel x s.mem
  freeCell mem s.head

/-! ## The loop -/

/-- The loop frees the cells of linked rows and no other. -/
theorem slCloseLoop_spec {mem : Mem} {rows : List Row} (h : Linked mem rows)
    (hon : ∀ r ∈ rows, r.on 0 = true) (hnodup : (rows.map Row.addr).Nodup) {fuel : ℕ}
    (hfuel : rows.length < fuel) :
  slCloseLoop fuel (rows.head?.map Row.addr) mem
    = some fun a => if a ∈ rows.map Row.addr then none else mem a
  := by
  induction rows generalizing mem fuel with
  | nil =>
    obtain ⟨fuel, rfl⟩ := Nat.exists_eq_add_of_lt hfuel
    rfl
  | cons r rows ih =>
    obtain ⟨fuel, rfl⟩ : ∃ n, fuel = n + 1 := Nat.exists_eq_succ_of_ne_zero (Nat.ne_zero_of_lt hfuel)
    obtain ⟨hr, hnodup'⟩ := List.nodup_cons.mp (hnodup : (r.addr :: rows.map Row.addr).Nodup)
    have hnext : nextAt mem r.addr 0 = some (rows.head?.map Row.addr) := by
      rw [h.1.nextAt_eq (hon r List.mem_cons_self)]
      cases rows with
      | nil => rfl
      | cons r' rows => rw [towerNext_cons_on (hon r' (by simp))]; rfl
    obtain ⟨next, hcell, -⟩ := h.1
    have hrest : Linked (Function.update mem r.addr none) rows := by
      apply h.2.frame
      intro r' hr'
      apply Function.update_of_ne
      intro heq
      apply hr
      rw [← heq]
      apply List.mem_map_of_mem hr'
    have hlen : rows.length < fuel := Nat.lt_of_succ_lt_succ hfuel
    have hloop := ih hrest (fun r' hr' => hon r' (List.mem_cons_of_mem r hr')) hnodup' hlen
    simp only [List.head?_cons, Option.map_some, slCloseLoop, hnext, freeCell, hcell,
      Option.bind_eq_bind, Option.bind_some, hloop]
    congr 1
    funext a
    rw [List.map_cons]
    rcases eq_or_ne a r.addr with rfl | hne
    · simp [hr]
    · simp [hne]

/-! ## The live cells -/

section Live

variable {R : Type}

/-- The live cells are below the next one, and one more than the keys. -/
structure SlLive (s : Skiplist R) (live : Finset Addr) : Prop where
  mem_iff : ∀ a, a ∈ live ↔ (s.mem a).isSome
  fresh : ∀ a ∈ live, a < s.brk
  card_eq : (live.card : ℤ) = s.count + 1

theorem SlLive.open (rng : R) :
  SlLive (skiplistOpen rng) {0}
  := by
  constructor
  case mem_iff =>
    intro a
    rcases eq_or_ne a 0 with rfl | hne
    · simp [skiplistOpen]
    · simp [skiplistOpen, hne]
  case fresh =>
    intro a ha
    obtain rfl := Finset.mem_singleton.mp ha
    apply Nat.zero_lt_one
  case card_eq => rfl

/-- Linking leaves the live cells. -/
theorem isSome_slLink {update : Update} {n : Addr} {mem mem' : Mem} {lvl : ℕ}
    (h : slLink update n mem lvl = some mem') (b : Addr) :
  (mem' b).isSome = (mem b).isSome
  := by
  induction lvl generalizing mem' with
  | zero =>
    obtain rfl := Option.some.inj h
    rfl
  | succ i ih =>
    simp only [slLink, Option.bind_eq_bind, Option.bind_eq_some_iff] at h
    obtain ⟨mem₁, hmem₁, p, -, t, -, mem₂, hmem₂, hset⟩ := h
    rw [isSome_setNext hset, isSome_setNext hmem₂, ih hmem₁]

variable {s s' : Skiplist R} {live : Finset Addr}

/-- A put keeps the live cells or adds one. -/
theorem SlLive.put (h : SlLive s live) {rand : R → ℕ × R} {fuel : ℕ} {k v : Bytes} {rc : ℤ}
    (hput : slPut rand fuel s k v = some (rc, s')) :
  ∃ live', SlLive s' live'
  := by
  simp only [slPut, Option.bind_eq_bind, Option.bind_eq_some_iff] at hput
  obtain ⟨⟨x, update⟩, -, y, -, hput⟩ := hput
  cases y with
  | some y =>
    simp only [Option.bind_eq_some_iff, Option.some.injEq, Prod.mk.injEq] at hput
    obtain ⟨c, hc, -, rfl⟩ := hput
    use live
    constructor
    case mem_iff =>
      intro a
      rw [h.mem_iff]
      rcases eq_or_ne a y with rfl | hne
      · simp [hc]
      · simp [hne]
    case fresh => apply h.fresh
    case card_eq => apply h.card_eq
  | none =>
    simp only [Option.bind_eq_some_iff, Option.some.injEq, Prod.mk.injEq] at hput
    obtain ⟨update', -, mem, hlink, -, rfl⟩ := hput
    have hnew : s.brk ∉ live := fun hbrk => Nat.lt_irrefl _ (h.fresh _ hbrk)
    use insert s.brk live
    constructor
    case mem_iff =>
      intro a
      rw [isSome_slLink hlink, Finset.mem_insert, h.mem_iff]
      rcases eq_or_ne a s.brk with rfl | hne
      · simp
      · simp [hne]
    case fresh =>
      intro a ha
      rcases Finset.mem_insert.mp ha with rfl | ha
      · apply Nat.lt_succ_self
      · apply (h.fresh a ha).trans (Nat.lt_succ_self _)
    case card_eq =>
      have hcard := h.card_eq
      rw [Finset.card_insert_of_notMem hnew]
      push_cast
      omega

/-- A delete keeps the live cells or frees one. -/
theorem SlLive.del (h : SlLive s live) {fuel : ℕ} {k : Bytes} {rc : ℤ}
    (hdel : slDel fuel s k = some (rc, s')) :
  ∃ live', SlLive s' live'
  := by
  simp only [slDel, Option.bind_eq_bind, Option.bind_eq_some_iff] at hdel
  obtain ⟨⟨x, update⟩, -, y, hmatch, hdel⟩ := hdel
  cases y with
  | none =>
    simp only [Option.some.injEq, Prod.mk.injEq] at hdel
    obtain ⟨-, rfl⟩ := hdel
    use live
  | some y =>
    simp only [Option.bind_eq_some_iff, Option.some.injEq, Prod.mk.injEq] at hdel
    obtain ⟨mem, hunlink, level, -, -, rfl⟩ := hdel
    have hy : y ∈ live := (h.mem_iff y).mpr (isSome_of_slMatch hmatch)
    use live.erase y
    constructor
    case mem_iff =>
      intro a
      rw [Finset.mem_erase, h.mem_iff]
      rcases eq_or_ne a y with rfl | hne
      · simp
      · simp [hne, isSome_slUnlink hunlink]
    case fresh =>
      intro a ha
      apply h.fresh a (Finset.mem_of_mem_erase ha)
    case card_eq =>
      have hcard := h.card_eq
      have hpos := Finset.card_pos.mpr ⟨y, hy⟩
      rw [Finset.card_erase_of_mem hy]
      push_cast [Nat.cast_sub hpos]
      omega

/-- Every run of calls keeps track of the live cells. -/
theorem SlLive.after (h : SlLive s live) {rand : R → ℕ × R} {fuel : ℕ} {calls : List SlCall}
    (hrun : slAfter rand fuel s calls = some s') :
  ∃ live', SlLive s' live'
  := by
  induction calls generalizing s live with
  | nil =>
    obtain rfl := Option.some.inj hrun
    use live
  | cons call calls ih =>
    simp only [slAfter, Option.bind_eq_bind, Option.bind_eq_some_iff] at hrun
    obtain ⟨⟨answer, t⟩, hstep, hrest⟩ := hrun
    obtain ⟨live₁, h₁⟩ : ∃ live₁, SlLive t live₁ := by
      rcases slStep_cases hstep with ⟨k, v, rc, hput⟩ | ⟨k, rc, hdel⟩ | rfl
      · apply h.put hput
      · apply h.del hdel
      · use live
    apply ih h₁ hrest

/-! ## Closing -/

/-- The live cells are those of the head and the rows. -/
theorem SlInv.live_eq {hd : Row} {rows : List Row} (hinv : SlInv s hd rows) (h : SlLive s live) :
  live = ((hd :: rows).map Row.addr).toFinset
  := by
  symm
  apply Finset.eq_of_subset_of_card_le
  · intro a ha
    obtain ⟨r, hr, rfl⟩ := List.mem_map.mp (List.mem_toFinset.mp ha)
    obtain ⟨before, after, hsplit⟩ := List.append_of_mem hr
    have hlinked := hinv.linked
    rw [hsplit] at hlinked
    obtain ⟨next, hcell, -⟩ := hlinked.cell
    rw [h.mem_iff, hcell]
    rfl
  · have hcard := h.card_eq
    rw [hinv.count_eq] at hcard
    rw [List.toFinset_card_of_nodup hinv.nodup, List.length_map, List.length_cons]
    omega

/-- Closing a skiplist that holds a map frees its live cells and leaves an empty heap. -/
theorem slClose_spec {m : Contents} (hholds : SlHolds s m) (h : SlLive s live) {fuel : ℕ}
    (hfuel : m.entries.length < fuel) :
  slClose fuel s = some fun _ => none
  := by
  obtain ⟨hd, rows, hinv, hentries⟩ := hholds
  rw [hentries, List.length_map] at hfuel
  have hlinked : Linked s.mem ([] ++ hd :: rows) := hinv.linked
  obtain ⟨next, hcell, -⟩ := hlinked.cell
  have hnext : nextAt s.mem hd.addr 0 = some (rows.head?.map Row.addr) := by
    rw [hlinked.cell.nextAt_eq (hinv.head_on (by decide)),
      hinv.towerNext_zero (List.nil_append rows).symm]
  obtain ⟨hhd, hnodup⟩ := List.nodup_cons.mp
    (hinv.nodup : (hd.addr :: rows.map Row.addr).Nodup)
  have hloop := slCloseLoop_spec hlinked.2 (fun r hr => hinv.on_zero hr) hnodup hfuel
  simp only [slClose, hnext, Option.bind_eq_bind, Option.bind_some, hloop, freeCell, hinv.head_eq,
    if_neg hhd, hcell, Option.map_some]
  congr 1
  funext a
  rcases eq_or_ne a hd.addr with rfl | hne
  · rw [Function.update_self]
  · rw [Function.update_of_ne hne]
    split_ifs with ha
    · rfl
    · have hnot : a ∉ live := by
        rw [hinv.live_eq h, List.mem_toFinset, List.map_cons, List.mem_cons]
        rintro (heq | hmem)
        · apply hne heq
        · apply ha hmem
      rw [h.mem_iff, Option.isSome_iff_ne_none, not_not] at hnot
      apply hnot

end Live

section Threads

open Access Interleave RwLock

variable {R ι : Type} [DecidableEq ι] {rand : R → ℕ × R} {fuel : ℕ} {rng : R}
  {es : List (ι × Action SlCall)} {c : Config (Skiplist R) SlCall SlAnswer ι}

/-- Threads share a new skiplist and make fewer calls than the loops have steps.  Once none of them
is in a call, closing the list frees every live cell, none twice, and leaves none. -/
theorem threads_close (hrand : ∀ r, 0 < (rand r).1 ∧ (rand r).1 ≤ slMaxLevel)
    (hrun : run (step (slObject rand fuel)) (start (skiplistOpen rng)) es = some c)
    (hfuel : (calls (es.map Prod.snd)).length < fuel) (hidle : ∀ t, c.phase t = .idle) :
  slClose fuel c.state = some fun _ => none
  := by
  obtain ⟨s, h⟩ := reached_of_run hrun
  have hlen := ops_length_lt hrun hfuel
  obtain ⟨hafter, hholds⟩ := slAfter_of_serial hrand hlen h.serial
  obtain ⟨live, hlive⟩ := (SlLive.open rng).after hafter
  rw [h.state_of_idle hidle]
  apply slClose_spec hholds hlive
  apply Nat.lt_of_le_of_lt _ hlen
  apply length_slContents_le

/-- Two threads have put and read a key. -/
theorem threads_close_example :
  ∃ c, run (step (slObject randLevel 4)) (start (skiplistOpen (skiplistSeed 1)))
      (putAndGet ++ [(0, .leave), (1, .enter)] ++ List.replicate 9 (1, .access) ++ [(1, .leave)])
      = some c ∧
    slClose 4 c.state = some fun _ => none
  := by
  have hsome : (run (step (slObject randLevel 4)) (start (skiplistOpen (skiplistSeed 1)))
      (putAndGet ++ [(0, .leave), (1, .enter)] ++ List.replicate 9 (1, .access) ++
        [(1, .leave)])).isSome := rfl
  use (Option.get _ hsome), (Option.some_get hsome).symm
  apply threads_close randLevel_height (Option.some_get hsome).symm (by decide)
  intro t
  match t with
  | 0 => rfl
  | 1 => rfl

end Threads

end Keybench
