import Keybench.Skiplist.Edit

/-!
# The skiplist is an ordered map

`SlHolds s m` says that the skiplist `s` holds the entries of the ordered map `m`.  Each
operation succeeds on such a skiplist and does to it what the map operation does to `m`,
whatever heights from `1` to `slMaxLevel` the generator draws.
-/

namespace Keybench

variable {R : Type}

/-- The skiplist `s` holds the entries of `m`. -/
def SlHolds (s : Skiplist R) (m : Contents) : Prop :=
  ∃ hd rows, SlInv s hd rows ∧ m.entries = rows.map Row.entry

/-- A new skiplist holds the empty map. -/
theorem SlHolds.open (rng : R) :
  SlHolds (skiplistOpen rng) OrderedMap.empty
  := ⟨headRow, [], SlInv.open rng, rfl⟩

/-- The rows of a skiplist split where its map does. -/
theorem exists_rows_split {m : Contents} {rows : List Row} (h : m.entries = rows.map Row.entry)
    (k : Bytes) :
  ∃ below above, rows = below ++ above ∧ m.SplitAt k (below.map Row.entry) (above.map Row.entry) ∧
    (∀ r ∈ below, r.key < k) ∧ ∀ r ∈ above, k ≤ r.key
  := by
  have hsplit := m.splitAt k
  have hmap := h.symm.trans hsplit.entries_eq
  obtain ⟨below, above, rfl, hbelow, habove⟩ := List.map_eq_append_iff.mp hmap
  rw [← hbelow, ← habove] at hsplit
  use below, above, rfl, hsplit
  constructor
  · intro r hr
    apply hsplit.below _ (List.mem_map_of_mem hr)
  · intro r hr
    apply hsplit.above _ (List.mem_map_of_mem hr)

/-- When a search finds no row, the key is absent from the rows from it on. -/
theorem ne_of_found_none {s : Skiplist R} {hd : Row} {below above : List Row} {k : Bytes}
    (h : SlInv s hd (below ++ above)) (habove : ∀ r ∈ above, k ≤ r.key)
    (hfound : SlInv.found k above = none) :
  ∀ r ∈ above, r.key ≠ k
  := by
  cases above with
  | nil => simp
  | cons r above =>
    have hrk : r.key ≠ k := by
      intro heq
      simp [SlInv.found, heq] at hfound
    have hsorted := (List.pairwise_append.mp h.sorted).2.1
    intro r' hr'
    rcases List.mem_cons.mp hr' with rfl | hr'
    · apply hrk
    · have hlt := (List.pairwise_cons.mp hsorted).1 r' hr'
      apply ((habove r List.mem_cons_self).trans_lt hlt).ne'

/-- When a search finds a row, it is the first from the key on. -/
theorem eq_cons_of_found {above : List Row} {k : Bytes} {a : Addr}
    (hfound : SlInv.found k above = some a) :
  ∃ r rest, above = r :: rest ∧ r.key = k ∧ r.addr = a
  := by
  cases above with
  | nil => simp [SlInv.found] at hfound
  | cons r rest =>
    simp only [SlInv.found, Option.ite_none_right_eq_some, Option.some.injEq] at hfound
    exact ⟨r, rest, rfl, hfound⟩

/-! ## Reading -/

/-- `sl_get` returns `1` and the value of a key that is present, and `0` otherwise. -/
theorem slGet_spec {s : Skiplist R} {m : Contents} (h : SlHolds s m) (k : Bytes) {fuel : ℕ}
    (hfuel : m.entries.length + 1 < fuel) :
  slGet fuel s k = some (match m.lookup k with
    | some v => (1, some v)
    | none => (0, none))
  := by
  obtain ⟨hd, rows, hinv, hentries⟩ := h
  obtain ⟨below, above, rfl, hsplit, hbelow, habove⟩ := exists_rows_split hentries k
  have hlen : below.length + 1 < fuel := by
    simp [hentries] at hfuel
    omega
  obtain ⟨x, update, hrun, -, -, hmatch⟩ := hinv.search hbelow habove hlen
  have hseek := slSeek_of_slDescend hrun
  cases hfound : SlInv.found k above with
  | none =>
    have habsent : m.lookup k = none := by
      apply hsplit.lookup_absent
      intro e he
      obtain ⟨r, hr, rfl⟩ := List.mem_map.mp he
      apply ne_of_found_none hinv habove hfound r hr
    rw [hfound] at hmatch
    simp only [slGet, hseek, hmatch, habsent, Option.bind_eq_bind, Option.bind_some]
  | some a =>
    obtain ⟨r, rest, rfl, rfl, rfl⟩ := eq_cons_of_found hfound
    have hpresent : m.lookup r.key = some r.val := hsplit.lookup_present
    have hlinked : Linked s.mem ((hd :: below) ++ r :: rest) := hinv.linked
    obtain ⟨next, hcell, -⟩ := hlinked.cell
    rw [hfound] at hmatch
    simp only [slGet, hseek, hmatch, hcell, hpresent, Option.bind_eq_bind, Option.bind_some]

/-- The row loop calls the callback on the rows below `hi` that the limit still allows. -/
theorem slRangeLoop_spec {σ : Type} {s : Skiplist R} {hd : Row} {above : List Row} (hi : Bytes)
    (limit : ℤ) (cb : RowCallback σ Bytes Bytes) :
    ∀ {below : List Row} {fuel : ℕ} (n : ℤ) (st : σ), SlInv s hd (below ++ above) →
      above.length < fuel →
      slRangeLoop s.mem hi limit cb fuel (above.head?.map Row.addr) n st
        = some (n + (scan cb (remaining limit n
              (OrderedMap.upTo hi (above.map Row.entry))) st).passed,
            (scan cb (remaining limit n
              (OrderedMap.upTo hi (above.map Row.entry))) st).state)
  := by
  induction above with
  | nil =>
    intro below fuel n st _ hfuel
    obtain ⟨fuel, rfl⟩ := Nat.exists_eq_succ_of_ne_zero (Nat.ne_of_gt hfuel)
    simp [slRangeLoop]
  | cons r above ih =>
    intro below fuel n st h hfuel
    obtain ⟨fuel, rfl⟩ := Nat.exists_eq_succ_of_ne_zero (Nat.ne_of_gt (Nat.zero_lt_of_lt hfuel))
    have hlinked : Linked s.mem ((hd :: below) ++ r :: above) := h.linked
    have hcells := hlinked.cell
    obtain ⟨next, hcell, -⟩ := id hcells
    have happ : below ++ r :: above = (below ++ [r]) ++ above := by simp
    have h' : SlInv s hd ((below ++ [r]) ++ above) := by
      rw [← happ]
      apply h
    have hnext := hcells.nextAt_eq (h.on_zero (r := r) (by simp))
    rw [h'.towerNext_zero rfl] at hnext
    simp only [List.head?_cons, Option.map_some, slRangeLoop, List.map_cons, hcell,
      Option.bind_eq_bind, Option.bind_some]
    by_cases hlim : limit ≤ 0 ∨ n < limit
    · rw [if_pos hlim]
      by_cases hhi : r.key < hi
      · have hcmp : ¬ 0 ≤ kvKeycmp r.key hi := by
          rw [kvKeycmp_nonneg_iff]
          apply not_le.mpr hhi
        rw [if_neg hcmp, OrderedMap.upTo_cons_lt hhi, remaining_cons hlim]
        by_cases hstop : (cb st r.key r.val).1 = 0
        · have hscan := scan_cons_pass hstop (remaining limit (n + 1)
            (OrderedMap.upTo hi (above.map Row.entry)))
          simp only [ne_eq, hstop, not_true_eq_false, if_false, hnext, Option.bind_some]
          rw [ih _ _ h' (Nat.lt_of_succ_lt_succ hfuel), Row.entry, hscan]
          simp only [Nat.cast_add, Nat.cast_one]
          congr 2
          omega
        · have hscan := scan_cons_stop hstop (remaining limit (n + 1)
            (OrderedMap.upTo hi (above.map Row.entry)))
          simp only [ne_eq, hstop, not_false_eq_true, if_true]
          rw [Row.entry, hscan]
          simp
      · have hcmp : 0 ≤ kvKeycmp r.key hi := (kvKeycmp_nonneg_iff _ _).mpr (not_lt.mp hhi)
        rw [if_pos hcmp, OrderedMap.upTo_cons_ge hhi]
        simp
    · rw [if_neg hlim, remaining_of_reached hlim]
      simp

/-- `sl_range` calls the callback on the leading rows of the slice and counts those it
passes. -/
theorem slRange_spec {σ : Type} {s : Skiplist R} {m : Contents} (h : SlHolds s m) (lo hi : Bytes)
    (limit : ℤ) (cb : RowCallback σ Bytes Bytes) (st : σ) {fuel : ℕ}
    (hfuel : m.entries.length + 1 < fuel) :
  slRange fuel s lo hi limit cb st
    = some (((scan cb (leading limit (m.slice lo hi)) st).passed : ℤ),
        (scan cb (leading limit (m.slice lo hi)) st).state)
  := by
  obtain ⟨hd, rows, hinv, hentries⟩ := h
  obtain ⟨below, above, rfl, hsplit, hbelow, habove⟩ := exists_rows_split hentries lo
  have hlen : below.length + 1 < fuel ∧ above.length < fuel := by
    simp [hentries] at hfuel
    omega
  obtain ⟨x, update, hrun, -, hnext, -⟩ := hinv.search hbelow habove hlen.1
  have hseek := slSeek_of_slDescend hrun
  have hloop := slRangeLoop_spec hi limit cb 0 st hinv hlen.2
  rw [hsplit.slice_eq, leading_eq_remaining]
  simp only [slRange, hseek, hnext, hloop, Option.bind_eq_bind, Option.bind_some, Int.zero_add]

/-! ## Writing -/

/-- Overwriting the value of a row in place keeps the list linked. -/
theorem Linked.overwrite {mem : Mem} {rows post : List Row} {r : Row}
    (h : Linked mem (rows ++ r :: post)) (hnodup : ((rows ++ r :: post).map Row.addr).Nodup)
    (v : Bytes) {c : SlNode} (hc : mem r.addr = some c) :
  Linked (Function.update mem r.addr (some { c with val := v }))
    (rows ++ { r with val := v } :: post)
  := by
  have hne : ∀ x ∈ rows ++ post, x.addr ≠ r.addr := fun x hx => addr_ne_of_nodup hnodup hx
  obtain ⟨next, hcell, hnext⟩ := h.cell
  obtain rfl : c = _ := Option.some.inj (hc.symm.trans hcell)
  apply Linked.replace_tail h
  · constructor
    · use next
      constructor
      · apply Function.update_self
      · apply hnext
    · apply (h.drop rows).2.frame
      intro x hx
      apply Function.update_of_ne (hne x (List.mem_append_right _ hx))
  · intro x hx
    apply Function.update_of_ne (hne x (List.mem_append_left _ hx))
  · intro _ _ i _ _ r' _
    have haddr : ({ r with val := v } : Row).addr = r.addr := rfl
    apply towerNext_replace haddr rfl

/-- Overwriting the value of a row in place keeps the invariant. -/
theorem SlInv.overwrite {s : Skiplist R} {hd : Row} {below above : List Row} {r : Row}
    (h : SlInv s hd (below ++ r :: above)) (v : Bytes) {c : SlNode} (hc : s.mem r.addr = some c) :
  SlInv { s with mem := Function.update s.mem r.addr (some { c with val := v }) } hd
    (below ++ { r with val := v } :: above)
  := by
  have hmap : ∀ {β : Type} (f : Row → β), f { r with val := v } = f r →
      (below ++ { r with val := v } :: above).map f = (below ++ r :: above).map f := by
    intro β f hf
    simp [hf]
  have hall : ∀ {P : Row → Prop}, (P r → P { r with val := v }) → (∀ x ∈ below ++ r :: above, P x) →
      ∀ x ∈ below ++ { r with val := v } :: above, P x := by
    intro P hP hx
    rw [List.forall_mem_append, List.forall_mem_cons] at hx ⊢
    exact ⟨hx.1, hP hx.2.1, hx.2.2⟩
  have hlinked : Linked s.mem ((hd :: below) ++ r :: above) := h.linked
  have hnodup : (((hd :: below) ++ r :: above).map Row.addr).Nodup := h.nodup
  constructor
  case linked => apply hlinked.overwrite hnodup v hc
  case head_eq => apply h.head_eq
  case head_cap => apply h.head_cap
  case on_eq =>
    have hon := h.on_eq
    rw [List.forall_mem_cons] at hon ⊢
    exact ⟨hon.1, hall id hon.2⟩
  case nodup =>
    rw [List.map_cons, hmap Row.addr rfl]
    apply h.nodup
  case fresh =>
    have hfresh := h.fresh
    rw [List.forall_mem_cons] at hfresh ⊢
    exact ⟨hfresh.1, hall id hfresh.2⟩
  case sorted =>
    have hsorted := h.sorted
    rw [← List.pairwise_map (f := Row.key) (R := (· < ·))] at hsorted ⊢
    rw [hmap Row.key rfl]
    apply hsorted
  case cap_pos => apply hall id h.cap_pos
  case cap_le => apply hall id h.cap_le
  case level_pos => apply h.level_pos
  case level_le => apply h.level_le
  case tight =>
    intro hlvl
    apply List.mem_map.mp
    rw [hmap Row.cap rfl]
    apply List.mem_map.mpr (h.tight hlvl)
  case count_eq =>
    have hcount := h.count_eq
    simpa using hcount

/-- The row a `sl_put` creates. -/
def newRow (addr : Addr) (k v : Bytes) (lvl : ℕ) : Row where
  addr := addr
  key := k
  val := v
  cap := lvl
  on := fun i => decide (i < lvl)

/-- Before the linking loop, the allocated node stands between the rows and is linked on no
level. -/
theorem SlInv.allocate {s : Skiplist R} {hd : Row} {below above : List Row}
    (h : SlInv s hd (below ++ above)) (k v : Bytes) (lvl : ℕ) :
  Linked (Function.update s.mem s.brk (some (nodeNew lvl k v)))
      ((hd :: below) ++ (newRow s.brk k v lvl).upTo 0 :: above) ∧
    (((hd :: below) ++ newRow s.brk k v lvl :: above).map Row.addr).Nodup
  := by
  have hne : ∀ r ∈ (hd :: below) ++ above, r.addr ≠ s.brk :=
    fun r hr => (h.fresh r hr).ne
  constructor
  · apply Linked.put_in
    · apply h.linked.frame
      intro r hr
      apply Function.update_of_ne (hne r hr)
    · intro i
      simp [Row.upTo]
    · use fun _ => none
      constructor
      · apply Function.update_self
      · intro i hi
        simp [Row.upTo] at hi
  · have hperm : ((hd :: below) ++ newRow s.brk k v lvl :: above).Perm
        (newRow s.brk k v lvl :: ((hd :: below) ++ above)) := List.perm_middle
    rw [(hperm.map Row.addr).nodup_iff, List.map_cons, List.nodup_cons]
    constructor
    · intro hmem
      obtain ⟨r, hr, heq⟩ := List.mem_map.mp hmem
      apply hne r hr heq
    · apply h.nodup

/-- Above the old level of the list, the head is the last row linked. -/
theorem SlInv.lastOn_head {s : Skiplist R} {hd : Row} {below above : List Row}
    (h : SlInv s hd (below ++ above)) {i : ℕ} (hlevel : s.level ≤ i) (hi : i < slMaxLevel) :
  LastOn i (hd :: below) hd
  := by
  use [], below, rfl, h.head_on hi
  intro r hr
  have hr' : r ∈ below ++ above := List.mem_append_left above hr
  have hcap := h.cap_le r hr'
  rw [h.on_eq r (List.mem_cons_of_mem hd hr'), decide_eq_false_iff_not]
  omega

/-- A skiplist with a new row between the rows with smaller and greater keys. -/
theorem SlInv.insert {s : Skiplist R} {hd : Row} {below above : List Row}
    (h : SlInv s hd (below ++ above)) {k v : Bytes} (hbelow : ∀ r ∈ below, r.key < k)
    (habove : ∀ r ∈ above, k < r.key) {lvl : ℕ} (hpos : 0 < lvl) (hle : lvl ≤ slMaxLevel)
    {mem : Mem} (hmem : Linked mem ((hd :: below) ++ newRow s.brk k v lvl :: above)) (rng : R) :
  SlInv { s with mem, brk := s.brk + 1, level := if lvl > s.level then lvl else s.level, rng,
                 count := s.count + 1 } hd (below ++ newRow s.brk k v lvl :: above)
  := by
  have hall : ∀ {P : Row → Prop}, (∀ x ∈ below ++ above, P x) → P (newRow s.brk k v lvl) →
      ∀ x ∈ below ++ newRow s.brk k v lvl :: above, P x := by
    intro P hx hP
    rw [List.forall_mem_append] at hx
    rw [List.forall_mem_append, List.forall_mem_cons]
    exact ⟨hx.1, hP, hx.2⟩
  have hlvl : s.level ≤ (if lvl > s.level then lvl else s.level) ∧
      lvl ≤ (if lvl > s.level then lvl else s.level) := by
    split <;> omega
  have hlevel := h.level_pos
  have hmax := h.level_le
  constructor
  case linked => apply hmem
  case nodup => apply (h.allocate k v lvl).2
  case head_eq => apply h.head_eq
  case head_cap => apply h.head_cap
  case on_eq =>
    have hon := h.on_eq
    rw [List.forall_mem_cons] at hon ⊢
    exact ⟨hon.1, hall hon.2 (fun _ => rfl)⟩
  case fresh =>
    have hfresh := h.fresh
    rw [List.forall_mem_cons] at hfresh ⊢
    constructor
    · apply Nat.lt_succ_of_lt hfresh.1
    · apply hall (fun x hx => Nat.lt_succ_of_lt (hfresh.2 x hx)) (Nat.lt_succ_self _)
  case sorted =>
    have hsorted := h.sorted
    rw [List.pairwise_append] at hsorted ⊢
    obtain ⟨hs, hs', hlt⟩ := hsorted
    use hs
    constructor
    · apply List.Pairwise.cons habove hs'
    · intro x hx y hy
      rcases List.mem_cons.mp hy with rfl | hy
      · apply hbelow x hx
      · apply hlt x hx y hy
  case cap_pos => apply hall h.cap_pos hpos
  case cap_le => apply hall (fun x hx => (h.cap_le x hx).trans hlvl.1) hlvl.2
  case level_pos => apply lt_of_lt_of_le hlevel hlvl.1
  case level_le =>
    show (if lvl > s.level then lvl else s.level) ≤ slMaxLevel
    split <;> omega
  case tight =>
    intro hone
    by_cases hraise : lvl > s.level
    · use newRow s.brk k v lvl
      simp [hraise, newRow]
    · simp only [hraise, if_false] at hone ⊢
      obtain ⟨r, hr, hcap⟩ := h.tight hone
      use r
      constructor
      · rcases List.mem_append.mp hr with hr | hr
        · simp [hr]
        · simp [hr]
      · apply hcap
  case count_eq =>
    have hcount := h.count_eq
    simp only [List.length_append, List.length_cons] at hcount ⊢
    omega

/-- `sl_put` binds the key, whatever height the generator draws. -/
theorem slPut_spec {s : Skiplist R} {m : Contents} (h : SlHolds s m) {rand : R → ℕ × R}
    (hrand : ∀ r, 0 < (rand r).1 ∧ (rand r).1 ≤ slMaxLevel) (k v : Bytes) {fuel : ℕ}
    (hfuel : m.entries.length + 1 < fuel) :
  ∃ s', slPut rand fuel s k v = some (0, s') ∧ SlHolds s' (m.insert k v)
  := by
  obtain ⟨hd, rows, hinv, hentries⟩ := h
  obtain ⟨below, above, rfl, hsplit, hbelow, habove⟩ := exists_rows_split hentries k
  have hlen : below.length + 1 < fuel := by
    simp [hentries] at hfuel
    omega
  obtain ⟨x, update, hrun, hupdate, -, hmatch⟩ := hinv.search hbelow habove hlen
  cases hfound : SlInv.found k above with
  | some a =>
    obtain ⟨r, rest, rfl, rfl, rfl⟩ := eq_cons_of_found hfound
    have hlinked : Linked s.mem ((hd :: below) ++ r :: rest) := hinv.linked
    obtain ⟨next, hcell, -⟩ := hlinked.cell
    rw [hfound] at hmatch
    simp only [slPut, hrun, hmatch, hcell, Option.bind_eq_bind, Option.bind_some]
    refine ⟨_, rfl, hd, _, hinv.overwrite v hcell, ?_⟩
    rw [hsplit.insert_present]
    simp [Row.entry]
  | none =>
    have habsent := ne_of_found_none hinv habove hfound
    obtain ⟨hpos, hle⟩ := hrand s.rng
    obtain ⟨lvl, rng, hdraw⟩ : ∃ lvl rng, rand s.rng = (lvl, rng) := ⟨_, _, rfl⟩
    rw [hdraw] at hpos hle
    have hgrow : ∃ update', slGrow s.head s.level lvl update = some update' ∧
        ∀ i < lvl, ∃ p, update' i = some p.addr ∧ LastOn i (hd :: below) p := by
      by_cases hgt : lvl > s.level
      · obtain ⟨update', hrun', hin, hout⟩ := slRaise_spec s.head update
          (show s.level + (lvl - s.level) ≤ slMaxLevel by simp only at hle; omega)
        rw [slGrow, if_pos hgt]
        use update', hrun'
        intro i hi
        by_cases hlow : i < s.level
        · rw [hout i hlow]
          apply hupdate i hlow
        · use hd
          constructor
          · rw [hin i (by omega) (by omega), hinv.head_eq]
          · apply hinv.lastOn_head (by omega) (by simp only at hle; omega)
      · rw [slGrow, if_neg hgt]
        use update, rfl
        intro i hi
        apply hupdate i (by omega)
    obtain ⟨update', hrun', hupdate'⟩ := hgrow
    obtain ⟨hlinked, hnodup⟩ := hinv.allocate k v lvl
    obtain ⟨mem, hlink, hmem⟩ := slLink_spec hlinked hnodup (n := lvl) le_rfl hupdate'
    have hmem' : Linked mem ((hd :: below) ++ newRow s.brk k v lvl :: above) := hmem
    have hlink' : slLink update' s.brk (Function.update s.mem s.brk (some (nodeNew lvl k v))) lvl
        = some mem := hlink
    rw [hfound] at hmatch
    simp only [slPut, hrun, hmatch, hdraw, hrun', hlink', Option.bind_eq_bind, Option.bind_some]
    refine ⟨_, rfl, hd, _, hinv.insert hbelow ?_ hpos hle hmem' rng, ?_⟩
    · intro r hr
      apply lt_of_le_of_ne (habove r hr) (habsent r hr).symm
    · rw [hsplit.insert_absent]
      · simp [Row.entry, newRow]
      · intro e he
        obtain ⟨r, hr, rfl⟩ := List.mem_map.mp he
        apply habsent r hr

/-- A skiplist without one of its rows, at a level that still fits the rest. -/
theorem SlInv.remove {s : Skiplist R} {hd : Row} {below above : List Row} {r : Row}
    (h : SlInv s hd (below ++ r :: above)) {mem : Mem} (hmem : Linked mem (hd :: (below ++ above)))
    {level : ℕ} (hpos : 0 < level) (hle : level ≤ s.level)
    (hcap : ∀ x ∈ below ++ above, x.cap ≤ level)
    (htight : 1 < level → ∃ x ∈ below ++ above, x.cap = level) :
  SlInv { s with mem := Function.update mem r.addr none, level, count := s.count - 1 } hd
    (below ++ above)
  := by
  have hsub : List.Sublist (below ++ above) (below ++ r :: above) :=
    (List.sublist_cons_self r above).append_left below
  have hall : ∀ {P : Row → Prop}, (∀ x ∈ hd :: (below ++ r :: above), P x) →
      ∀ x ∈ hd :: (below ++ above), P x :=
    fun hx x hmem => hx x ((hsub.cons_cons hd).subset hmem)
  have hnodup : (((hd :: below) ++ r :: above).map Row.addr).Nodup := h.nodup
  constructor
  case linked =>
    apply hmem.frame
    intro x hx
    apply Function.update_of_ne
    apply addr_ne_of_nodup hnodup hx
  case nodup => apply h.nodup.sublist ((hsub.cons_cons hd).map Row.addr)
  case head_eq => apply h.head_eq
  case head_cap => apply h.head_cap
  case on_eq => apply hall h.on_eq
  case fresh => apply hall h.fresh
  case sorted => apply h.sorted.sublist hsub
  case cap_pos => apply fun x hx => h.cap_pos x (hsub.subset hx)
  case cap_le => apply hcap
  case level_pos => apply hpos
  case level_le => apply hle.trans h.level_le
  case tight => apply htight
  case count_eq =>
    have hcount := h.count_eq
    simp only [List.length_append, List.length_cons] at hcount ⊢
    omega

/-- `sl_del` returns `1` and unbinds the key when it is present, and returns `0` and changes
nothing otherwise. -/
theorem slDel_spec {s : Skiplist R} {m : Contents} (h : SlHolds s m) (k : Bytes) {fuel : ℕ}
    (hfuel : m.entries.length + 1 < fuel) :
  ∃ s', slDel fuel s k = some (if (m.lookup k).isSome then 1 else 0, s') ∧ SlHolds s' (m.erase k)
  := by
  obtain ⟨hd, rows, hinv, hentries⟩ := id h
  obtain ⟨below, above, rfl, hsplit, hbelow, habove⟩ := exists_rows_split hentries k
  have hlen : below.length + 1 < fuel := by
    simp [hentries] at hfuel
    omega
  obtain ⟨x, update, hrun, hupdate, -, hmatch⟩ := hinv.search hbelow habove hlen
  cases hfound : SlInv.found k above with
  | none =>
    have habsent : ∀ e ∈ above.map Row.entry, e.1 ≠ k := by
      intro e he
      obtain ⟨r, hr, rfl⟩ := List.mem_map.mp he
      apply ne_of_found_none hinv habove hfound r hr
    rw [hfound] at hmatch
    use s
    simp only [slDel, hrun, hmatch, hsplit.lookup_absent habsent, hsplit.erase_absent habsent,
      Option.bind_eq_bind, Option.bind_some, Option.isSome_none, Bool.false_eq_true, if_false]
    exact ⟨trivial, h⟩
  | some a =>
    obtain ⟨r, rest, rfl, rfl, rfl⟩ := eq_cons_of_found hfound
    have hpresent : m.lookup r.key = some r.val := hsplit.lookup_present
    have hlinked : Linked s.mem ((hd :: below) ++ r :: rest) := hinv.linked
    have hrest : r.downFrom 0 = r := by
      have hon : (fun j => decide (0 ≤ j ∧ j < r.cap)) = r.on := by
        funext j
        simp [hinv.on_eq r (by simp) j]
      simp only [Row.downFrom, hon]
    obtain ⟨mem, hunlink, hmem⟩ := slUnlink_spec (r := r) (by rwa [hrest]) hinv.nodup hupdate
    have hoff : ∀ i, (r.downFrom s.level).on i = false := by
      intro i
      have hcap := hinv.cap_le r (by simp)
      simp only [Row.downFrom, decide_eq_false_iff_not]
      omega
    have hmem' : Linked mem (hd :: (below ++ rest)) := hmem.leave_out hoff
    have hsub : List.Sublist (below ++ rest) (below ++ r :: rest) :=
      (List.sublist_cons_self r rest).append_left below
    obtain ⟨level, hshrink, hpos, hle, hcap, htight⟩ := slShrink_spec hmem'
      (fun i hi => hinv.head_on hi)
      (fun x hx => hinv.on_eq x (List.mem_cons_of_mem hd (hsub.subset hx))) hinv.level_pos
      hinv.level_le (fun x hx => hinv.cap_le x (hsub.subset hx))
    rw [← hinv.head_eq] at hshrink
    rw [hfound] at hmatch
    simp only [slDel, hrun, hmatch, hunlink, hshrink, hpresent, Option.bind_eq_bind,
      Option.bind_some, Option.isSome_some, if_true]
    refine ⟨_, rfl, hd, _, hinv.remove hmem' hpos hle hcap htight, ?_⟩
    rw [hsplit.erase_present]
    simp

end Keybench
