import Keybench.Kv.Lists
import Keybench.Lib.Recycling
import Mathlib.Data.List.GetD

/-!
# The strings of a list

`l_mget`, `l_mput` and `l_mdel` gather pointers to the strings of a list in one loop and give
them to the store after it.  A string that the table holds stays where it is.  A number is
converted on the stack, and once its slot is popped nothing refers to its string: the next
allocation may recycle it.  So the store gets the strings of the list, whatever the allocator and
the collector do, exactly when at most one element is a number (`handsStrings_iff`).
-/

namespace Keybench

open Recycling (Block read Alloc)

/-! ## Lists and the memory -/

/-- An element of a list. -/
inductive LuaElem where
  /-- A string, which is at an address. -/
  | str (addr : ℕ) (s : Bytes)
  /-- A number, with its string form. -/
  | num (s : Bytes) (nonempty : s ≠ [])

namespace LuaElem

/-- The string form. -/
def form : LuaElem → Bytes
  | .str _ s => s
  | .num s _ => s

/-- Whether an element is a number. -/
def isNum : LuaElem → Bool
  | .str _ _ => false
  | .num _ _ => true

/-- An element as the verbs see it. -/
def arg (e : LuaElem) : LuaArg := .text e.form none

end LuaElem

/-- The memory of Lua strings when a verb starts to gather. -/
structure LuaHeap where
  /-- The memory. -/
  bytes : ℕ → UInt8
  /-- The strings that the stack or a reachable table refers to. -/
  refs : List Block

/-- The strings among some elements are referenced, and they are in the memory. -/
def LuaHeap.Holds (heap : LuaHeap) (es : List LuaElem) : Prop :=
  ∀ a s, .str a s ∈ es → (a, s.length) ∈ heap.refs ∧ read heap.bytes (a, s.length) = s

/-- A list of strings and numbers, as an argument of `kv.mget` or `kv.mdel`. -/
structure KeyList where
  /-- The memory. -/
  heap : LuaHeap
  /-- The elements. -/
  elems : List LuaElem
  holds : heap.Holds elems

/-- The components of some pairs, in order. -/
def components {α : Type} (l : List (α × α)) : List α := l.flatMap (fun e => [e.1, e.2])

/-- A list of pairs of strings and numbers, as the argument of `kv.mput`. -/
structure PairList where
  /-- The memory. -/
  heap : LuaHeap
  /-- The `key` and `val` fields of the elements. -/
  elems : List (LuaElem × LuaElem)
  holds : heap.Holds (components elems)

/-- The element at a position, counted from one, as `lua_geti` pushes it. -/
def KeyList.geti (t : KeyList) (i : ℕ) : LuaArg := ((t.elems[i - 1]?).map LuaElem.arg).getD .nil

/-- The element at a position, counted from one, as `lua_geti` pushes it. -/
def PairList.geti (t : PairList) (i : ℕ) : LuaArg :=
  ((t.elems[i - 1]?).map (fun e => .table 0 (fun _ => .nil)
    (fun field => if field = ascii "key" then e.1.arg
      else if field = ascii "val" then e.2.arg else .nil))).getD .nil

/-! ## Gathering -/

/-- The loop that gathers pointers: it ends with the pointers `ps` and the memory `m'`.  The
conversion of a number allocates its string, and at that moment only the strings in `refs` are
referenced, since the slots of the elements before it are popped. -/
inductive Gathers (refs : List Block) : (ℕ → UInt8) → List LuaElem → List Block → (ℕ → UInt8) → Prop
  | nil (m : ℕ → UInt8) : Gathers refs m [] [] m
  /-- `luaL_checklstring` of a string points to it. -/
  | str {m m' : ℕ → UInt8} {es : List LuaElem} {ps : List Block} (a : ℕ) (s : Bytes) :
    Gathers refs m es ps m' → Gathers refs m (.str a s :: es) ((a, s.length) :: ps) m'
  /-- `luaL_checklstring` of a number points to a new string. -/
  | num {m m₁ m' : ℕ → UInt8} {es : List LuaElem} {ps : List Block} {s : Bytes} (hs : s ≠ [])
    {a : ℕ} : Alloc refs m s a m₁ → Gathers refs m₁ es ps m' →
      Gathers refs m (.num s hs :: es) ((a, s.length) :: ps) m'

/-- `l_mget` and `l_mdel` give the store the strings of the list. -/
def HandsStrings (t : KeyList) : Prop :=
  ∀ ps m', Gathers t.heap.refs t.heap.bytes (t.elems.take (listCount t.elems.length)) ps m' →
    luaStrings t.geti 0 (listCount t.elems.length) = some (ps.map (read m'))

/-- `l_mput` gives the store the strings of the list.  For each element it gathers a pointer to
the key and then one to the value. -/
def HandsPairs (t : PairList) : Prop :=
  ∀ ps m', Gathers t.heap.refs t.heap.bytes
      (components (t.elems.take (listCount t.elems.length))) (components ps) m' →
    luaPairs t.geti 0 (listCount t.elems.length)
      = some (ps.map (fun p => (read m' p.1, read m' p.2)))

/-! ## What a gathering keeps -/

/-- The referenced strings stay as they are. -/
theorem Gathers.kept {refs : List Block} {m m' : ℕ → UInt8} {es : List LuaElem} {ps : List Block}
    (h : Gathers refs m es ps m') {b : Block} (hb : b ∈ refs) :
  read m' b = read m b
  := by
  induction h with
  | nil m => rfl
  | str a s h ih => apply ih
  | num hs halloc h ih => rw [ih, halloc.kept b hb]

/-- Without numbers the memory stays as it is. -/
theorem Gathers.memory_eq {refs : List Block} {m m' : ℕ → UInt8} {es : List LuaElem}
    {ps : List Block} (h : Gathers refs m es ps m') (hnum : es.countP LuaElem.isNum = 0) :
  m' = m
  := by
  induction h with
  | nil m => rfl
  | str a s h ih =>
    apply ih
    rwa [List.countP_cons_of_neg (by simp [LuaElem.isNum])] at hnum
  | num hs halloc h ih => simp [List.countP_cons, LuaElem.isNum] at hnum

/-- With at most one number, the pointers point to the string forms. -/
theorem Gathers.read_eq {refs : List Block} {m m' : ℕ → UInt8} {es : List LuaElem}
    {ps : List Block} (h : Gathers refs m es ps m')
    (hes : ∀ a s, .str a s ∈ es → (a, s.length) ∈ refs ∧ read m (a, s.length) = s)
    (hnum : es.countP LuaElem.isNum ≤ 1) :
  ps.map (read m') = es.map LuaElem.form
  := by
  induction h with
  | nil m => rfl
  | str a s h ih =>
    obtain ⟨hmem, hread⟩ := hes a s List.mem_cons_self
    rw [List.countP_cons_of_neg (by simp [LuaElem.isNum])] at hnum
    rw [List.map_cons, List.map_cons, ih (fun b t ht => hes b t (List.mem_cons_of_mem _ ht)) hnum,
      h.kept hmem, hread]
    rfl
  | @num m m₁ m' es ps s hs a halloc h ih =>
    rw [List.countP_cons_of_pos (by simp [LuaElem.isNum])] at hnum
    have hm : m' = m₁ := h.memory_eq (by omega)
    have hrest : ∀ b t, .str b t ∈ es → (b, t.length) ∈ refs ∧ read m₁ (b, t.length) = t := by
      intro b t ht
      obtain ⟨hmem, hread⟩ := hes b t (List.mem_cons_of_mem _ ht)
      rw [halloc.kept _ hmem]
      exact ⟨hmem, hread⟩
    rw [List.map_cons, List.map_cons, ih hrest (by omega), hm, halloc.new]
    rfl

/-! ## Recycled strings -/

/-- The memory after a conversion that writes the string `s` at `top + 1` and leaves the byte `c`
at `top`. -/
def overwrite (top : ℕ) (c : UInt8) (s : Bytes) (m : ℕ → UInt8) : ℕ → UInt8 := fun x =>
  if x = top then c
  else if top < x ∧ x < top + 1 + s.length then s.getD (x - (top + 1)) 0
  else m x

/-- Above the referenced strings, a conversion may overwrite a byte. -/
theorem alloc_overwrite {refs : List Block} {top : ℕ} (htop : ∀ b ∈ refs, b.1 + b.2 ≤ top)
    (c : UInt8) (s : Bytes) (m : ℕ → UInt8) :
  Alloc refs m s (top + 1) (overwrite top c s m)
  := by
  apply Recycling.alloc_above htop (Nat.le_succ top)
  · intro x hx
    rw [overwrite, if_neg (by omega), if_neg (by omega)]
  · intro i hi
    rw [overwrite, if_neg (by omega), if_pos (by omega), Nat.add_sub_cancel_left,
      List.getD_eq_getElem _ _ hi]

/-- Above the referenced strings, a gathering may overwrite a byte when it meets a number. -/
theorem exists_gathers {refs : List Block} {top : ℕ} (htop : ∀ b ∈ refs, b.1 + b.2 ≤ top)
    (c : UInt8) (es : List LuaElem) (m : ℕ → UInt8) :
  ∃ ps m', Gathers refs m es ps m' ∧
    ((0 < es.countP LuaElem.isNum ∨ m top = c) → m' top = c)
  := by
  induction es generalizing m with
  | nil => exact ⟨[], m, .nil m, by simp⟩
  | cons e es ih =>
    cases e with
    | str a s =>
      obtain ⟨ps, m', hrun, htopc⟩ := ih m
      refine ⟨_, m', .str a s hrun, ?_⟩
      rwa [List.countP_cons_of_neg (by simp [LuaElem.isNum])]
    | num s hs =>
      obtain ⟨ps, m', hrun, htopc⟩ := ih (overwrite top c s m)
      refine ⟨_, m', .num hs (alloc_overwrite htop c s m) hrun, ?_⟩
      intro _
      apply htopc
      right
      rw [overwrite, if_pos rfl]

/-- With two numbers, a pointer may point to something else than the string form. -/
theorem exists_gathers_ne (refs : List Block) {es : List LuaElem}
    (hnum : 2 ≤ es.countP LuaElem.isNum) (m : ℕ → UInt8) :
  ∃ ps m', Gathers refs m es ps m' ∧ ps.map (read m') ≠ es.map LuaElem.form
  := by
  obtain ⟨top, htop⟩ := Recycling.exists_bound refs
  induction es with
  | nil => simp at hnum
  | cons e es ih =>
    cases e with
    | str a s =>
      rw [List.countP_cons_of_neg (by simp [LuaElem.isNum])] at hnum
      obtain ⟨ps, m', hrun, hne⟩ := ih hnum
      refine ⟨_, m', .str a s hrun, ?_⟩
      intro heq
      apply hne
      rw [List.map_cons, List.map_cons] at heq
      apply (List.cons.inj heq).2
    | num s hs =>
      rw [List.countP_cons_of_pos (by simp [LuaElem.isNum])] at hnum
      obtain ⟨d, t, rfl⟩ := List.exists_cons_of_ne_nil hs
      -- the first number is written at `top`, and a later one overwrites its first byte
      have halloc : Alloc refs m (d :: t) top
          (fun x => if top ≤ x then (d :: t).getD (x - top) 0 else m x) := by
        apply Recycling.alloc_above htop (le_refl top)
        · intro x hx
          rw [if_neg (by omega)]
        · intro i hi
          rw [if_pos (by omega), Nat.add_sub_cancel_left, List.getD_eq_getElem _ _ hi]
      obtain ⟨ps, m', hrun, htopc⟩ := exists_gathers htop (d + 1) es
        (fun x => if top ≤ x then (d :: t).getD (x - top) 0 else m x)
      refine ⟨_, m', .num hs halloc hrun, ?_⟩
      intro heq
      rw [List.map_cons, List.map_cons] at heq
      have hhead := congrArg List.head? (List.cons.inj heq).1
      rw [Recycling.head?_read _ (by simp), htopc (Or.inl (by omega)), LuaElem.form,
        List.head?_cons, Option.some.injEq] at hhead
      simp at hhead

/-- The pointers point to the string forms in every run exactly when at most one element is a
number. -/
theorem gathers_read_iff {heap : LuaHeap} {es : List LuaElem} (hes : heap.Holds es) :
  (∀ ps m', Gathers heap.refs heap.bytes es ps m' → ps.map (read m') = es.map LuaElem.form)
    ↔ es.countP LuaElem.isNum ≤ 1
  := by
  constructor
  · intro h
    by_contra hnum
    obtain ⟨ps, m', hrun, hne⟩ := exists_gathers_ne heap.refs (not_le.mp hnum) heap.bytes
    apply hne (h ps m' hrun)
  · intro hnum ps m' hrun
    apply hrun.read_eq hes hnum

/-! ## What the store gets -/

/-- Elements of a list that holds are held. -/
theorem LuaHeap.Holds.mono {heap : LuaHeap} {es es' : List LuaElem} (h : heap.Holds es)
    (hsub : es' ⊆ es) :
  heap.Holds es'
  := fun a s hmem => h a s (hsub hmem)

/-- What `luaStrings` reads of a list of strings and numbers. -/
theorem KeyList.luaStrings_eq (t : KeyList) :
  luaStrings t.geti 0 (listCount t.elems.length)
    = some ((t.elems.take (listCount t.elems.length)).map LuaElem.form)
  := by
  have hforms : ∀ i (h : i < (t.elems.map LuaElem.form).length),
      luaLChecklstring (t.geti (i + 1)) = some (t.elems.map LuaElem.form)[i] := by
    intro i hi
    rw [List.length_map] at hi
    rw [KeyList.geti, Nat.add_sub_cancel, List.getElem?_eq_getElem hi, List.getElem_map]
    rfl
  have hread := luaStrings_take hforms
  rwa [List.length_map, ← List.map_take] at hread

/-- What `luaPairs` reads of a list of pairs. -/
theorem PairList.luaPairs_eq (t : PairList) :
  luaPairs t.geti 0 (listCount t.elems.length)
    = some ((t.elems.take (listCount t.elems.length)).map (fun e => (e.1.form, e.2.form)))
  := by
  have hforms : ∀ i (h : i < (t.elems.map (fun e => (e.1.form, e.2.form))).length),
      ∃ len geti field, t.geti (i + 1) = .table len geti field ∧
        luaLChecklstring (field (ascii "key"))
          = some (t.elems.map (fun e => (e.1.form, e.2.form)))[i].1 ∧
        luaLChecklstring (field (ascii "val"))
          = some (t.elems.map (fun e => (e.1.form, e.2.form)))[i].2 := by
    intro i hi
    rw [List.length_map] at hi
    have hne : ascii "val" ≠ ascii "key" := by decide
    rw [PairList.geti, Nat.add_sub_cancel, List.getElem?_eq_getElem hi, List.getElem_map,
      Option.map_some, Option.getD_some]
    refine ⟨_, _, _, rfl, ?_, ?_⟩
    · rw [if_pos rfl]
      rfl
    · rw [if_neg hne, if_pos rfl]
      rfl
  have hread := luaPairs_take hforms
  rwa [List.length_map, ← List.map_take] at hread

/-- A function on components. -/
theorem map_components {α β : Type} (f : α → β) (l : List (α × α)) :
  (components l).map f = components (l.map (fun e => (f e.1, f e.2)))
  := by
  induction l with
  | nil => rfl
  | cons e l ih =>
    rw [List.map_cons, components, components, List.flatMap_cons, List.flatMap_cons,
      List.map_append]
    exact congrArg (fun t => f e.1 :: f e.2 :: t) ih

/-- Pairs are determined by their components. -/
theorem components_injective {α : Type} {l l' : List (α × α)}
    (h : components l = components l') :
  l = l'
  := by
  induction l generalizing l' with
  | nil =>
    cases l' with
    | nil => rfl
    | cons e l' => cases h
  | cons e l ih =>
    cases l' with
    | nil => cases h
    | cons e' l' =>
      obtain ⟨hkey, hrest⟩ := List.cons.inj h
      obtain ⟨hval, hrest⟩ := List.cons.inj hrest
      rw [Prod.ext hkey hval, ih hrest]

/-- A gathering of the components of some pairs gives pairs of pointers. -/
theorem Gathers.exists_pairs {refs : List Block} {es : List (LuaElem × LuaElem)}
    {m m' : ℕ → UInt8} {ps : List Block} (h : Gathers refs m (components es) ps m') :
  ∃ qs, ps = components qs
  := by
  have hcons : ∀ {m : ℕ → UInt8} {e : LuaElem} {es : List LuaElem} {ps : List Block},
      Gathers refs m (e :: es) ps m' → ∃ p ps' m₁, ps = p :: ps' ∧ Gathers refs m₁ es ps' m' := by
    intro m e es ps h
    cases h with
    | str a s h => exact ⟨_, _, _, rfl, h⟩
    | num hs halloc h => exact ⟨_, _, _, rfl, h⟩
  induction es generalizing m ps with
  | nil =>
    cases h
    exact ⟨[], rfl⟩
  | cons e es ih =>
    obtain ⟨p, ps, m₁, rfl, hval⟩ := hcons h
    obtain ⟨q, ps, m₂, rfl, hrest⟩ := hcons hval
    obtain ⟨qs, rfl⟩ := ih hrest
    exact ⟨(p, q) :: qs, rfl⟩

/-- The components of the first pairs are components. -/
theorem components_take_subset {α : Type} (l : List (α × α)) (n : ℕ) :
  components (l.take n) ⊆ components l
  := by
  intro x hx
  rw [components, List.mem_flatMap] at hx ⊢
  obtain ⟨e, he, hx⟩ := hx
  exact ⟨e, List.take_subset _ _ he, hx⟩

/-- `kv.mget` and `kv.mdel` give the store the strings of a list, whatever is recycled, exactly
when at most one of the elements they read is a number, and `kv.mput` exactly when at most one of
the keys and values it reads is a number. -/
theorem handsStrings_iff (t : KeyList) (u : PairList) :
  (HandsStrings t ↔ (t.elems.take (listCount t.elems.length)).countP LuaElem.isNum ≤ 1) ∧
    (HandsPairs u ↔
      (components (u.elems.take (listCount u.elems.length))).countP LuaElem.isNum ≤ 1)
  := by
  constructor
  · rw [← gathers_read_iff (t.holds.mono (List.take_subset _ _)), HandsStrings, t.luaStrings_eq]
    simp only [Option.some.injEq, eq_comm]
  · rw [← gathers_read_iff (u.holds.mono (components_take_subset _ _)), HandsPairs, u.luaPairs_eq]
    constructor
    · intro h ps m' hrun
      obtain ⟨qs, rfl⟩ := hrun.exists_pairs
      rw [map_components, map_components, ← Option.some.inj (h qs m' hrun)]
    · intro h qs m' hrun
      have hforms := h _ m' hrun
      rw [map_components, map_components] at hforms
      rw [components_injective hforms]

/-! ## Two numbers -/

/-- The list of the numbers one and two. -/
def oneTwo : KeyList where
  heap := ⟨fun _ => 0, []⟩
  elems := [.num (ascii "1") (by decide), .num (ascii "2") (by decide)]
  holds := by
    intro a s hmem
    simp at hmem

/-- The store may get something else than the strings of two numbers. -/
theorem oneTwo_not_handed :
  ¬ HandsStrings oneTwo
  := by
  intro h
  have hcount : listCount oneTwo.elems.length = 2 := by decide
  rw [HandsStrings, oneTwo.luaStrings_eq, hcount] at h
  have hnum : 2 ≤ (oneTwo.elems.take 2).countP LuaElem.isNum := by decide
  obtain ⟨ps, m', hrun, hne⟩ := exists_gathers_ne oneTwo.heap.refs hnum oneTwo.heap.bytes
  apply hne (Option.some.inj (h ps m' hrun)).symm

end Keybench
