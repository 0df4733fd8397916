import Keybench.Workload.CartRun

/-!
# The items of a cart

The items of a user lie in a window of `cartW` ids that starts at `pickBase`.  The window lies in
the catalog when the catalog has `cartW` items; a smaller catalog has users and items for which
`pick_item` gives an item that is not in it (`staysInCatalog_iff`).
-/

namespace Keybench

/-! ## Lines that are touched -/

/-- A line of a user and of an item of the catalog, which lies in the window of the user. -/
structure InCatalog (users items u i : ℤ) : Prop where
  user : 0 ≤ u ∧ u < users
  item : 0 ≤ i ∧ i < items
  window : pickBase u items ≤ i ∧ i < pickBase u items + cartW

/-- Whatever is drawn, the lines that the cart workload touches by id are of users and of items
of the catalog, and the items of a user lie in the window of the user. -/
def StaysInCatalog (users items : ℤ) : Prop :=
  ∀ (G : Type) (rng : LuaRandom G) (hot : ℤ → G → ℤ × G) (g : G),
    (∀ (T t : ℕ) batches, t < T → cartLoad rng users items t T g = some batches →
      ∀ k ∈ batches.flatten, ∃ u i, lineKey u i = k ∧ InCatalog users items u i) ∧
    ∀ ops, CartRuns rng hot users items g ops →
      ∀ op ∈ ops, ∀ u i, op.line = some (u, i) → InCatalog users items u i

/-! ## Items -/

section Draws

variable {G : Type} {rng : LuaRandom G} {users items : ℤ}

/-- An item that is drawn lies in the window of the user. -/
theorem pickItem_window {uid iid : ℤ} {g g' : G} (h : pickItem rng uid items g = some (iid, g')) :
  pickBase uid items ≤ iid ∧ iid < pickBase uid items + cartW
  := by
  rw [pickItem] at h
  split_ifs at h
  have hmem := rng.random_mem g 0 (cartW - 1) (by decide)
  rcases hdraw : rng.random g 0 (cartW - 1) with ⟨r, g₁⟩
  rw [hdraw] at h hmem
  obtain ⟨rfl, -⟩ := Prod.mk.inj (Option.some.inj h)
  dsimp only at hmem
  omega

/-- A position in the window that is drawn for a user. -/
theorem lt_of_mem_drawItems {n : ℕ} {g : G} {o : ℤ} (h : o ∈ (drawItems rng n g).1) :
  o < cartW
  := by
  induction n generalizing g with
  | zero => cases h
  | succ n ih =>
    have hle := (rng.random_mem g 0 (cartW - 1) (by decide)).2
    rcases hdraw : rng.random g 0 (cartW - 1) with ⟨r, g₁⟩
    rw [hdraw] at hle
    simp only [drawItems, hdraw, List.mem_cons] at h
    rcases h with rfl | h
    · dsimp only at hle
      omega
    · apply ih h

theorem lt_of_mem_nthDraw {k : ℕ} {g : G} {o : ℤ} (h : o ∈ nthDraw rng g k) :
  o < cartW
  := by
  induction k generalizing g with
  | zero => apply lt_of_mem_drawItems h
  | succ k ih => apply ih h

/-- The window of a user lies in a catalog that has as many items. -/
theorem pickBase_add_le (uid : ℤ) (h : cartW ≤ items) :
  pickBase uid items + cartW ≤ items
  := by
  have hlt : pickBase uid items < max 1 (items - cartW) := by
    apply Int.emod_lt_of_pos
    apply lt_of_lt_of_le Int.one_pos (le_max_left _ _)
  rcases eq_or_lt_of_le h with rfl | h
  · rw [sub_self, max_eq_left Int.one_pos.le] at hlt
    have hnonneg := pickBase_nonneg uid cartW
    omega
  · rw [max_eq_right (by omega)] at hlt
    omega

/-- A user and an item of the window are in a catalog that has as many items. -/
theorem inCatalog_of_window (h : cartW ≤ items) {u i : ℤ} (hu : 0 ≤ u ∧ u < users)
    (hi : pickBase u items ≤ i ∧ i < pickBase u items + cartW) :
  InCatalog users items u i
  := by
  have hbase := pickBase_nonneg u items
  have hend := pickBase_add_le u h
  constructor
  · apply hu
  · omega
  · apply hi

/-- The last user is less than the number of users. -/
theorem lastUser_lt (husers : 1 ≤ users) :
  lastUser users < users
  := by
  rw [lastUser, luaWrap, Int.bmod_def]
  split_ifs <;> omega

/-- The lines that are loaded. -/
theorem mem_cartLoad (husers : 1 ≤ users) (hitems : 1 ≤ items) {T t : ℕ} (ht : t < T) {g : G}
    {batches : List (List Bytes)} (hload : cartLoad rng users items t T g = some batches)
    {k : Bytes} (hk : k ∈ batches.flatten) :
  ∃ u i, lineKey u i = k ∧ (0 ≤ u ∧ u < users)
    ∧ pickBase u items ≤ i ∧ i < pickBase u items + cartW
  := by
  obtain ⟨batches', hload', hlines⟩ := cartLoad_flatten rng hitems users t T g
  obtain rfl : batches = batches' := Option.some.inj (hload.symm.trans hload')
  rw [hlines, mem_drawLines] at hk
  obtain ⟨n, u, hu, hk⟩ := hk
  obtain ⟨rfl, hle⟩ := (getElem?_luaFor (by omega) n u).mp hu
  obtain ⟨o, ho, rfl⟩ := List.mem_map.mp hk
  have hnonneg := nonneg_of_mem_nthDraw rng ho
  have hlt := lt_of_mem_nthDraw ho
  have hlast := lastUser_lt husers
  have hfirst : (0 : ℤ) ≤ t + n * T := by positivity
  exact ⟨_, _, rfl, ⟨hfirst, by omega⟩, by omega, by omega⟩

/-- The user that is drawn. -/
theorem hotUser_spec {hot : ℤ → G → ℤ × G} {uid : ℤ} {g g' : G}
    (h : hotUser hot users g = some (uid, g')) :
  0 ≤ uid ∧ uid < users
  := by
  rw [hotUser] at h
  rcases hdraw : hot users g with ⟨u, g₁⟩
  rw [hdraw] at h
  dsimp only at h
  split_ifs at h with husers hrange
  obtain ⟨rfl, -⟩ := Prod.mk.inj (Option.some.inj h)
  omega

/-- The line that a call of `run` touches by id. -/
theorem cartRun_line {hot : ℤ → G → ℤ × G} {g g' : G} {op : CartOp}
    (hrun : cartRun rng hot users items g = some (op, g')) {u i : ℤ}
    (hline : op.line = some (u, i)) :
  (0 ≤ u ∧ u < users) ∧ pickBase u items ≤ i ∧ i < pickBase u items + cartW
  := by
  obtain ⟨⟨uid, g₁⟩, huser, hrun⟩ := Option.bind_eq_some_iff.mp hrun
  have hcat : ∀ {iid : ℤ} {g₂ : G},
      pickItem rng uid items (rng.random g₁ 1 100).2 = some (iid, g₂) →
      (0 ≤ uid ∧ uid < users) ∧ pickBase uid items ≤ iid ∧ iid < pickBase uid items + cartW :=
    fun hpick => ⟨hotUser_spec huser, pickItem_window hpick⟩
  dsimp only at hrun
  split_ifs at hrun
  all_goals
    first
    | obtain ⟨⟨iid, g₂⟩, hpick, hrun⟩ := Option.bind_eq_some_iff.mp hrun
      cases hrun
      cases hline
      apply hcat hpick
    | cases hrun
      cases hline

end Draws

/-! ## Small catalogs -/

/-- A generator that draws the greatest number of a range from zero on, and the least number of
another range. -/
def edgeRandom : LuaRandom Unit where
  randomseed _ := ()
  random g lo hi := (if lo = 0 then hi else lo, g)
  random_mem g lo hi h := by
    dsimp only
    split_ifs <;> omega

/-- With the greatest draw the user zero gets the last item of its window. -/
theorem cartRun_edge {users items : ℤ} (husers : 1 ≤ users) (hitems : 1 ≤ items) :
  cartRun edgeRandom (fun _ g => (0, g)) users items () = some (.add 0 15, ())
  := by
  have hbase : pickBase 0 items = 0 := by
    rw [pickBase, Int.zero_mul]
    apply Int.zero_emod
  have hhot : hotUser (fun _ g => (0, g)) users () = some (0, ()) := by
    rw [hotUser, if_neg (not_lt.mpr husers)]
    dsimp only
    rw [if_neg (by omega)]
  have hpick : pickItem edgeRandom 0 items () = some (15, ()) := by
    rw [pickItem, if_neg (not_lt.mpr hitems), hbase]
    rfl
  rw [cartRun, hhot, Option.bind_eq_bind, Option.bind_some]
  have hroll : edgeRandom.random () 1 100 = (1, ()) := rfl
  simp only [hroll, hpick]
  rfl

/-- A catalog with fewer items than a window is left. -/
theorem not_staysInCatalog {users items : ℤ} (husers : 1 ≤ users) (hitems : 1 ≤ items)
    (hsmall : items < cartW) :
  ¬ StaysInCatalog users items
  := by
  intro h
  have hruns : CartRuns edgeRandom (fun _ g => (0, g)) users items () [.add 0 15] :=
    .cons (cartRun_edge husers hitems) (.nil ())
  have hin := (h Unit edgeRandom (fun _ g => (0, g)) ()).2 _ hruns _ List.mem_cons_self 0 15 rfl
  have hitem := hin.item.2
  rw [cartW] at hsmall
  omega

/-- The cart workload stays in the catalog exactly when the catalog has as many items as a
window. -/
theorem staysInCatalog_iff {users items : ℤ} (husers : 1 ≤ users) (hitems : 1 ≤ items) :
  StaysInCatalog users items ↔ cartW ≤ items
  := by
  constructor
  · intro h
    by_contra hsmall
    apply not_staysInCatalog husers hitems (not_le.mp hsmall) h
  · intro hcatalog G rng hot g
    constructor
    · intro T t batches ht hload k hk
      obtain ⟨u, i, hkey, hu, hi⟩ := mem_cartLoad husers hitems ht hload hk
      exact ⟨u, i, hkey, inCatalog_of_window hcatalog hu hi⟩
    · intro ops hruns
      induction hruns with
      | nil g => simp
      | cons hrun hruns ih =>
        intro op hop u i hline
        rcases List.mem_cons.mp hop with rfl | hop
        · obtain ⟨hu, hi⟩ := cartRun_line hrun hline
          apply inCatalog_of_window hcatalog hu hi
        · apply ih op hop u i hline

/-- A catalog of sixteen items is large enough. -/
theorem staysInCatalog_iff_example :
  StaysInCatalog 1 16
  := (staysInCatalog_iff (by decide) (by decide)).mpr (by decide)

/-- A catalog of one item is too small. -/
theorem staysInCatalog_one :
  ¬ StaysInCatalog 1 1
  := not_staysInCatalog (by decide) (by decide) (by decide)

end Keybench
