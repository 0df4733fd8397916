import Keybench.Lib.Text
import Keybench.Workload.Lua

/-!
# The cart workload

`cartLoad` is what one seed thread of the cart workload does: it goes through the users it owns,
draws for each of them how many items to put in the cart and which, and hands the lines to `kv.mput`
in batches.  The lines do not depend on the batches (`cartLoad_flatten`): the `k`-th user that a
thread serves gets the items of the `k`-th draw of its generator (`nthDraw`).
-/

namespace Keybench

/-! ## The workload -/

/-- `CART_W`. -/
def cartW : ℤ := 16

/-- `KNUTH_MULT`. -/
def knuthMult : ℤ := 2654435761

/-- `VALUE`, of `VALUE_BYTES` bytes. -/
def cartValue : Bytes := List.replicate 4096 (chr 'v')

/-- `SEED_ITEMS_MIN`. -/
def seedItemsMin : ℤ := 3

/-- `SEED_ITEMS_RAND`. -/
def seedItemsRand : ℤ := 5

/-- `SEED_BATCH`. -/
def seedBatch : ℕ := 512

/-- The first item of the window of a user, `base` of `pick_item`. -/
def pickBase (uid items : ℤ) : ℤ :=
  let span := max 1 (items - cartW)
  luaWrap (uid * knuthMult) % span

/-- `line_key`. -/
def lineKey (uid iid : ℤ) : Bytes := ascii "u:" ++ fmt010 uid ++ ascii ":c:" ++ fmt010 iid

/-- The last user, `users - 1`. -/
def lastUser (users : ℤ) : ℤ := luaWrap (users - 1)

/-- `buf` with its first `n` keys, and the batches handed to `kv_mput`. -/
structure SeedBuffer where
  /-- The keys of `buf[1]` to `buf[n]`. -/
  buf : List Bytes
  /-- The keys of each batch. -/
  put : List (List Bytes)

/-- A line is added, and a full buffer is handed over. -/
def SeedBuffer.add (s : SeedBuffer) (key : Bytes) : SeedBuffer :=
  let buf := s.buf ++ [key]
  if buf.length = seedBatch then { buf := [], put := s.put ++ [buf] } else { s with buf }

/-- The batches when the last lines have been handed over. -/
def SeedBuffer.finish (s : SeedBuffer) : List (List Bytes) :=
  if s.buf.length > 0 then s.put ++ [s.buf] else s.put

section Load

variable {G : Type} (rng : LuaRandom G)

/-- `pick_item`, which raises an error when there are no items. -/
def pickItem (uid items : ℤ) (g : G) : Option (ℤ × G) :=
  if items < 1 then none
  else
    let (r, g) := rng.random g 0 (cartW - 1)
    some (pickBase uid items + r, g)

/-- The inner loop of `load`: some items for a user. -/
def seedItems (items uid : ℤ) : ℕ → G × SeedBuffer → Option (G × SeedBuffer)
  | 0, st => some st
  | n + 1, (g, s) => do
    let (iid, g) ← pickItem rng uid items g
    seedItems items uid n (g, s.add (lineKey uid iid))

/-- The body of the loop of `load` over the users. -/
def seedUser (items : ℤ) (st : G × SeedBuffer) (uid : ℤ) : Option (G × SeedBuffer) :=
  let (r, g) := rng.random st.1 0 seedItemsRand
  seedItems rng items uid (seedItemsMin + r).toNat (g, st.2)

/-- `load`: the batches of a thread, or `none` when it raises an error, which it does before the
first batch. -/
def cartLoad (users items thread threads : ℤ) (g : G) : Option (List (List Bytes)) := do
  let (_, s) ← (luaFor thread (lastUser users) threads).foldlM (seedUser rng items) (g, ⟨[], []⟩)
  some s.finish

/-! ## Draws -/

/-- The positions in the window of the items that are drawn. -/
def drawItems : ℕ → G → List ℤ × G
  | 0, g => ([], g)
  | n + 1, g =>
    let (r, g) := rng.random g 0 (cartW - 1)
    let (rs, g) := drawItems n g
    (r :: rs, g)

/-- What is drawn for a user: how many items, and then the items. -/
def drawUser (g : G) : List ℤ × G :=
  let (r, g) := rng.random g 0 seedItemsRand
  drawItems rng (seedItemsMin + r).toNat g

/-- What is drawn for the user that is served after `k` others. -/
def nthDraw (g : G) : ℕ → List ℤ
  | 0 => (drawUser rng g).1
  | k + 1 => nthDraw (drawUser rng g).2 k

/-- The lines of a user with what was drawn for it. -/
def cartLines (items uid : ℤ) (rs : List ℤ) : List Bytes :=
  rs.map fun r => lineKey uid (pickBase uid items + r)

/-- The lines of some users, one after the other. -/
def drawLines (items : ℤ) : List ℤ → G → List Bytes
  | [], _ => []
  | uid :: uids, g =>
    cartLines items uid (drawUser rng g).1 ++ drawLines items uids (drawUser rng g).2

end Load

/-! ## Lines -/

/-- All lines of a buffer, in order. -/
def SeedBuffer.lines (s : SeedBuffer) : List Bytes := s.put.flatten ++ s.buf

@[simp]
theorem SeedBuffer.lines_add (s : SeedBuffer) (key : Bytes) :
  (s.add key).lines = s.lines ++ [key]
  := by
  simp only [add, lines]
  split_ifs <;> simp

@[simp]
theorem SeedBuffer.flatten_finish (s : SeedBuffer) :
  s.finish.flatten = s.lines
  := by
  rw [finish, lines]
  split_ifs with h
  · simp
  · rw [List.eq_nil_of_length_eq_zero (Nat.eq_zero_of_not_pos h), List.append_nil]

section Spec

variable {G : Type} (rng : LuaRandom G) {items : ℤ}

/-- The inner loop adds the items that are drawn. -/
theorem seedItems_spec (hitems : 1 ≤ items) (uid : ℤ) (n : ℕ) (g : G) (s : SeedBuffer) :
  ∃ s', seedItems rng items uid n (g, s) = some ((drawItems rng n g).2, s') ∧
    s'.lines = s.lines ++ cartLines items uid (drawItems rng n g).1
  := by
  induction n generalizing g s with
  | zero => exact ⟨s, rfl, (List.append_nil _).symm⟩
  | succ n ih =>
    rcases hdraw : rng.random g 0 (cartW - 1) with ⟨r, g₁⟩
    obtain ⟨s', hrun, hlines⟩ := ih g₁ (s.add (lineKey uid (pickBase uid items + r)))
    use s'
    constructor
    · simp only [seedItems, pickItem, if_neg (not_lt.mpr hitems), hdraw, drawItems,
        Option.bind_eq_bind, Option.bind_some, hrun]
    · rw [hlines, SeedBuffer.lines_add]
      simp only [drawItems, hdraw, cartLines, List.map_cons, List.append_assoc,
        List.singleton_append]

/-- The loop over the users adds the lines of each of them. -/
theorem seedUsers_spec (hitems : 1 ≤ items) (uids : List ℤ) (g : G) (s : SeedBuffer) :
  ∃ g' s', uids.foldlM (seedUser rng items) (g, s) = some (g', s') ∧
    s'.lines = s.lines ++ drawLines rng items uids g
  := by
  induction uids generalizing g s with
  | nil => exact ⟨g, s, rfl, (List.append_nil _).symm⟩
  | cons uid uids ih =>
    rcases hdraw : rng.random g 0 seedItemsRand with ⟨r, g₁⟩
    have huser : drawUser rng g = drawItems rng (seedItemsMin + r).toNat g₁ := by
      simp only [drawUser, hdraw]
    obtain ⟨s₁, hrun, hlines⟩ := seedItems_spec rng hitems uid (seedItemsMin + r).toNat g₁ s
    obtain ⟨g', s', hrest, hlines'⟩ := ih (drawUser rng g).2 s₁
    use g', s'
    constructor
    · rw [List.foldlM_cons, seedUser]
      simp only [hdraw, hrun, ← huser, Option.bind_eq_bind, Option.bind_some, hrest]
    · rw [hlines', hlines, drawLines, huser, List.append_assoc]

/-- A thread puts the lines of its users. -/
theorem cartLoad_flatten (hitems : 1 ≤ items) (users thread threads : ℤ) (g : G) :
  ∃ batches, cartLoad rng users items thread threads g = some batches ∧
    batches.flatten = drawLines rng items (luaFor thread (lastUser users) threads) g
  := by
  obtain ⟨g', s, hrun, hlines⟩ :=
    seedUsers_spec rng hitems (luaFor thread (lastUser users) threads) g ⟨[], []⟩
  use s.finish
  constructor
  · simp only [cartLoad, hrun, Option.bind_eq_bind, Option.bind_some]
  · rw [SeedBuffer.flatten_finish, hlines]
    rfl

/-- Without items the load of a thread that has users fails. -/
theorem cartLoad_of_no_items (hitems : items < 1) {users thread threads : ℤ}
    (hthread : thread ≤ lastUser users) (g : G) :
  cartLoad rng users items thread threads g = none
  := by
  obtain ⟨uids, huids⟩ : ∃ uids, luaFor thread (lastUser users) threads = thread :: uids := by
    rw [luaFor, if_neg (not_lt.mpr hthread), List.range_succ_eq_map, List.map_cons]
    simp
  rcases hdraw : rng.random g 0 seedItemsRand with ⟨r, g₁⟩
  -- the first user gets at least one item, and the first item cannot be picked
  obtain ⟨n, hn⟩ : ∃ n, (seedItemsMin + r).toNat = n + 1 := by
    have hr := (rng.random_mem g 0 seedItemsRand (by decide)).1
    rw [hdraw] at hr
    use (2 + r).toNat
    simp only [seedItemsMin]
    omega
  have huser : seedUser rng items (g, ⟨[], []⟩) thread = none := by
    simp only [seedUser, hdraw, hn, seedItems, pickItem, if_pos hitems, Option.bind_eq_bind,
      Option.bind_none]
  rw [cartLoad, huids, List.foldlM_cons, huser]
  rfl

/-! ## The draws -/

/-- The lines of some users are those of each of them, with its draw. -/
theorem mem_drawLines {uids : List ℤ} {g : G} {key : Bytes} :
  key ∈ drawLines rng items uids g ↔
    ∃ k uid, uids[k]? = some uid ∧ key ∈ cartLines items uid (nthDraw rng g k)
  := by
  induction uids generalizing g with
  | nil => simp [drawLines]
  | cons uid uids ih =>
    rw [drawLines, List.mem_append, ih]
    constructor
    · rintro (h | ⟨k, uid', huid, h⟩)
      · exact ⟨0, uid, rfl, h⟩
      · exact ⟨k + 1, uid', huid, h⟩
    · rintro ⟨k, uid', huid, h⟩
      cases k with
      | zero =>
        obtain rfl := Option.some.inj huid
        left
        apply h
      | succ k =>
        right
        exact ⟨k, uid', huid, h⟩

/-- Positions in the window are not negative. -/
theorem nonneg_of_mem_drawItems {n : ℕ} {g : G} {o : ℤ} (h : o ∈ (drawItems rng n g).1) :
  0 ≤ o
  := by
  induction n generalizing g with
  | zero => cases h
  | succ n ih =>
    rcases List.mem_cons.mp h with rfl | h
    · apply (rng.random_mem g 0 (cartW - 1) (by decide)).1
    · apply ih h

theorem nonneg_of_mem_nthDraw {k : ℕ} {g : G} {o : ℤ} (h : o ∈ nthDraw rng g k) :
  0 ≤ o
  := by
  induction k generalizing g with
  | zero => apply nonneg_of_mem_drawItems rng h
  | succ k ih => apply ih h

end Spec

/-! ## Keys -/

theorem pickBase_nonneg (uid items : ℤ) :
  0 ≤ pickBase uid items
  := by
  apply Int.emod_nonneg
  have hspan : 1 ≤ max 1 (items - cartW) := le_max_left _ _
  omega

/-- The key of a line tells the user and the item. -/
theorem lineKey_injective {uid uid' iid iid' : ℤ} (hu : 0 ≤ uid) (hu' : 0 ≤ uid') (hi : 0 ≤ iid)
    (hi' : 0 ≤ iid') (h : lineKey uid iid = lineKey uid' iid') :
  uid = uid' ∧ iid = iid'
  := by
  simp only [lineKey, List.append_assoc] at h
  have hrest := List.append_cancel_left h
  have hsplit : ∀ {u i : ℤ}, 0 ≤ u →
      (fmt010 u ++ (ascii ":c:" ++ fmt010 i)).takeWhile isdigit = fmt010 u := by
    intro u i hu
    refine (Text.span_append (fun c hc => isdigit_of_mem_fmt010 hu hc) ?_).1
    intro c hc
    obtain rfl : chr ':' = c := Option.some.inj hc
    rfl
  have hfmt : fmt010 uid = fmt010 uid' := by
    rw [← hsplit (i := iid) hu, hrest, hsplit hu']
  rw [hfmt] at hrest
  constructor
  · apply fmt010_injective hu hu' hfmt
  · apply fmt010_injective hi hi'
    apply List.append_cancel_left (List.append_cancel_left hrest)

end Keybench
