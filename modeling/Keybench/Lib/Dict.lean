import Keybench.Lib.Keyed
import Mathlib.Algebra.GroupWithZero.Nat
import Mathlib.Order.Lattice

/-!
# Dictionaries

Dictionaries that keep their keys in the order of insertion, as lists of pairs: setting the value
of a key that is present changes it in place.  A list grouped by a key has the values of each key
in their order (`get_group`).
-/

namespace Dict

variable {κ α : Type*} [DecidableEq κ]

/-- `m.get (k)`. -/
def get (m : List (κ × α)) (k : κ) : Option α := m.lookup k

/-- `m[k] = a`. -/
def set (m : List (κ × α)) (k : κ) (a : α) : List (κ × α) :=
  if k ∈ m.map Prod.fst then m.map (fun e => if e.1 = k then (k, a) else e) else m ++ [(k, a)]

/-- A key that is not present is added at the end. -/
theorem set_of_notMem {m : List (κ × α)} {k : κ} (h : k ∉ m.map Prod.fst) (a : α) :
  set m k a = m ++ [(k, a)]
  := by
  rw [set, if_neg h]

/-- Entries of other keys are not changed. -/
theorem map_of_notMem {m : List (κ × α)} {k : κ} (h : k ∉ m.map Prod.fst) (a : α) :
  m.map (fun e => if e.1 = k then (k, a) else e) = m
  := by
  conv_rhs => rw [← List.map_id m]
  apply List.map_congr_left
  intro e he
  have hne : e.1 ≠ k := fun heq => h (heq ▸ List.mem_map_of_mem he)
  exact if_neg hne

/-- A key without a value is not present. -/
theorem get_eq_none {m : List (κ × α)} {k : κ} :
  get m k = none ↔ k ∉ m.map Prod.fst
  := by
  rw [get, List.lookup_eq_none_iff]
  constructor
  · intro h hmem
    obtain ⟨e, he, rfl⟩ := List.mem_map.mp hmem
    have hne := h e he
    simp at hne
  · intro h e he
    apply bne_iff_ne.mpr
    intro heq
    apply h (heq ▸ List.mem_map_of_mem he)

/-- Setting the value of the last key. -/
theorem set_concat {m : List (κ × α)} {k : κ} (h : k ∉ m.map Prod.fst) (a b : α) :
  set (m ++ [(k, a)]) k b = m ++ [(k, b)]
  := by
  rw [set, if_pos (by simp), List.map_append, map_of_notMem h]
  simp

/-- The keys after setting a value. -/
theorem keys_set (m : List (κ × α)) (k : κ) (a : α) :
  (set m k a).map Prod.fst
    = if k ∈ m.map Prod.fst then m.map Prod.fst else m.map Prod.fst ++ [k]
  := by
  rw [set]
  split_ifs with h
  · rw [List.map_map]
    apply List.map_congr_left
    intro e _
    dsimp only [Function.comp]
    split_ifs with hk
    · exact hk.symm
    · rfl
  · rw [List.map_append, List.map_singleton]

/-- Keys stay distinct. -/
theorem nodup_set {m : List (κ × α)} (h : (m.map Prod.fst).Nodup) (k : κ) (a : α) :
  ((set m k a).map Prod.fst).Nodup
  := by
  rw [keys_set]
  split_ifs with hk
  · exact h
  · apply List.Nodup.append h (List.nodup_singleton k)
    intro x hx hxk
    rw [List.mem_singleton] at hxk
    apply hk (hxk ▸ hx)

/-- The first entry decides its key. -/
theorem get_cons (e : κ × α) (m : List (κ × α)) (k : κ) :
  get (e :: m) k = if k = e.1 then some e.2 else get m k
  := by
  rw [get, List.lookup_cons]
  split_ifs with h
  · rw [h, beq_self_eq_true]
  · rw [beq_eq_false_iff_ne.mpr h]
    rfl

/-- A key that is present keeps its value when entries are added behind. -/
theorem get_append (m l : List (κ × α)) (k : κ) :
  get (m ++ l) k = (get m k).or (get l k)
  := by
  apply List.lookup_append

/-- The value of a key is in an entry. -/
theorem mem_of_get {m : List (κ × α)} {k : κ} {a : α} (h : get m k = some a) :
  (k, a) ∈ m
  := by
  induction m with
  | nil => cases h
  | cons e m ih =>
    rw [get_cons] at h
    split_ifs at h with hk
    · rw [hk, ← Option.some_inj.mp h]
      apply List.mem_cons_self
    · apply List.mem_cons_of_mem _ (ih h)

/-- With distinct keys, the entries are the values of the keys. -/
theorem mem_iff_get {m : List (κ × α)} (h : (m.map Prod.fst).Nodup) {k : κ} {a : α} :
  (k, a) ∈ m ↔ get m k = some a
  := by
  refine ⟨fun hmem => ?_, mem_of_get⟩
  induction m with
  | nil => cases hmem
  | cons e m ih =>
    rw [List.map_cons, List.nodup_cons] at h
    rw [get_cons]
    rcases List.mem_cons.mp hmem with rfl | hmem
    · rw [if_pos rfl]
    · have hne : k ≠ e.1 := by
        rintro rfl
        apply h.1 (List.mem_map.mpr ⟨_, hmem, rfl⟩)
      rw [if_neg hne, ih h.2 hmem]

/-- The value of a key by its position, when keys are distinct. -/
theorem get_zip {ks : List κ} (h : ks.Nodup) (vs : List α) {i : ℕ} {k : κ} (hi : ks[i]? = some k) :
  get (ks.zip vs) k = vs[i]?
  := by
  apply Keyed.lookup_zip h vs hi

/-- The values after setting one. -/
theorem get_set (m : List (κ × α)) (k : κ) (a : α) (j : κ) :
  get (set m k a) j = if j = k then some a else get m j
  := by
  rw [set]
  split_ifs with hmem hjk hjk
  · obtain rfl := hjk
    induction m with
    | nil => cases hmem
    | cons e m ih =>
      rw [List.map_cons, get_cons]
      by_cases he : e.1 = j
      · rw [if_pos he, if_pos rfl]
      · rw [List.map_cons, List.mem_cons] at hmem
        have hrest := hmem.resolve_left (Ne.symm he)
        rw [if_neg he, if_neg (Ne.symm he), ih hrest]
  · clear hmem
    induction m with
    | nil => rfl
    | cons e m ih =>
      rw [List.map_cons, get_cons, get_cons, ih]
      by_cases he : e.1 = k
      · rw [if_pos he, if_neg hjk, he, if_neg hjk]
      · rw [if_neg he]
  · obtain rfl := hjk
    rw [get_append, get_eq_none.mpr hmem, get_cons, if_pos rfl]
    rfl
  · rw [get_append, get_cons, if_neg hjk]
    apply Option.or_none

/-- Setting the values of new keys, one after the other. -/
theorem foldl_set {m l : List (κ × α)} (h : ((m ++ l).map Prod.fst).Nodup) :
  l.foldl (fun m e => set m e.1 e.2) m = m ++ l
  := by
  induction l generalizing m with
  | nil => rw [List.foldl_nil, List.append_nil]
  | cons e l ih =>
    have hsplit : m ++ e :: l = (m ++ [e]) ++ l := by
      rw [List.append_assoc, List.singleton_append]
    have hnew : e.1 ∉ m.map Prod.fst := by
      intro hmem
      rw [List.map_append, List.nodup_append] at h
      apply h.2.2 _ hmem _ _ rfl
      apply List.mem_map_of_mem List.mem_cons_self
    rw [List.foldl_cons, set_of_notMem hnew, ih (hsplit ▸ h), hsplit]

/-- A dictionary grows by at most one key. -/
theorem length_set_le (m : List (κ × α)) (k : κ) (a : α) :
  (set m k a).length ≤ m.length + 1
  := by
  rw [set]
  split_ifs
  · rw [List.length_map]
    apply Nat.le_succ
  · rw [List.length_append]
    apply Nat.le_refl

/-- A property of all entries. -/
theorem forall_mem_set {p : κ × α → Prop} {m : List (κ × α)} (h : ∀ e ∈ m, p e) {k : κ} {a : α}
    (ha : p (k, a)) :
  ∀ e ∈ set m k a, p e
  := by
  rw [set]
  split_ifs with hk
  · rw [List.forall_mem_map]
    intro e he
    split_ifs
    · exact ha
    · exact h e he
  · rw [List.forall_mem_append, List.forall_mem_singleton]
    exact ⟨h, ha⟩

/-- A sum over the entries when a new key is set. -/
theorem sum_set_of_get_none (f : κ × α → ℕ) {m : List (κ × α)} {k : κ}
    (h : get m k = none) (a : α) :
  ((set m k a).map f).sum = (m.map f).sum + f (k, a)
  := by
  rw [set_of_notMem (get_eq_none.mp h), List.map_append, List.sum_append, List.map_singleton,
    List.sum_singleton]

/-- Setting a key after an entry of another. -/
theorem set_cons_of_ne {m : List (κ × α)} {j k : κ} (h : k ≠ j) (c a : α) :
  set ((j, c) :: m) k a = (j, c) :: set m k a
  := by
  have hmem : k ∈ ((j, c) :: m).map Prod.fst ↔ k ∈ m.map Prod.fst := by
    simp [h]
  rw [set, set, if_congr hmem rfl rfl, List.map_cons, if_neg h.symm]
  split_ifs
  · rfl
  · rfl

/-- Setting the first key. -/
theorem set_cons_self {m : List (κ × α)} {k : κ} (h : k ∉ m.map Prod.fst) (c a : α) :
  set ((k, c) :: m) k a = (k, a) :: m
  := by
  rw [set, if_pos (by simp), List.map_cons, if_pos rfl, map_of_notMem h]

/-- A sum over the entries when the value of a key is changed. -/
theorem sum_set_of_get_some (f : κ × α → ℕ) {m : List (κ × α)} (hm : (m.map Prod.fst).Nodup)
    {k : κ} {a : α} (h : get m k = some a) (b : α) :
  ((set m k b).map f).sum + f (k, a) = (m.map f).sum + f (k, b)
  := by
  induction m with
  | nil => cases h
  | cons e m ih =>
    obtain ⟨j, c⟩ := e
    rw [List.map_cons, List.nodup_cons] at hm
    rw [get_cons] at h
    by_cases hk : k = j
    · subst hk
      rw [if_pos rfl] at h
      obtain rfl := Option.some_inj.mp h
      rw [set_cons_self hm.1, List.map_cons, List.map_cons, List.sum_cons, List.sum_cons]
      dsimp only
      omega
    · rw [if_neg hk] at h
      have hrec := ih hm.2 h
      rw [set_cons_of_ne hk, List.map_cons, List.map_cons, List.sum_cons, List.sum_cons]
      omega

/-! ## Grouping -/

variable {β : Type*}

/-- The values of a list grouped by a key, as `setdefault (key, []).append (value)` does for each
element. -/
def group (key : β → κ) (value : β → α) (l : List β) : List (κ × List α) :=
  l.foldl (fun m x => set m (key x) ((get m (key x)).getD [] ++ [value x])) []

/-- The values of a key, in their order. -/
theorem get_group (key : β → κ) (value : β → α) (l : List β) (k : κ) :
  get (group key value l) k
    = if k ∈ l.map key then some ((l.filter (fun x => key x = k)).map value) else none
  := by
  induction l using List.reverseRecOn with
  | nil => rfl
  | append_singleton l x ih =>
    have hstep : group key value (l ++ [x]) = set (group key value l) (key x)
        ((get (group key value l) (key x)).getD [] ++ [value x]) := by
      rw [group, List.foldl_append]
      rfl
    rw [hstep, get_set, List.map_append, List.filter_append, List.map_append]
    by_cases hk : k = key x
    · obtain rfl := hk
      rw [if_pos rfl, if_pos (by simp), ih]
      congr 2
      · split_ifs with hmem
        · rfl
        · have hnone : l.filter (fun y => key y = key x) = [] := by
            rw [List.filter_eq_nil_iff]
            intro y hy heq
            apply hmem
            rw [← of_decide_eq_true heq]
            apply List.mem_map_of_mem hy
          rw [hnone]
          rfl
      · simp
    · have hne : ¬ key x = k := Ne.symm hk
      rw [if_neg hk, ih]
      simp [hk, hne]

/-- The keys of a grouped list are distinct. -/
theorem nodup_group (key : β → κ) (value : β → α) (l : List β) :
  ((group key value l).map Prod.fst).Nodup
  := by
  induction l using List.reverseRecOn with
  | nil => exact List.nodup_nil
  | append_singleton l x ih =>
    rw [group, List.foldl_append]
    apply nodup_set ih

/-! ## Sorting -/

omit [DecidableEq κ] in
/-- The entries of a dictionary sorted by a rank of their keys have increasing ranks. -/
theorem pairwise_mergeSort {ρ : Type*} [LinearOrder ρ] {rank : κ → ρ}
    (hrank : Function.Injective rank) {m : List (κ × α)} (h : (m.map Prod.fst).Nodup) :
  (m.mergeSort (fun a b => rank a.1 ≤ rank b.1)).Pairwise (fun a b => rank a.1 < rank b.1)
  := by
  have htrans : ∀ a b c : κ × α, decide (rank a.1 ≤ rank b.1) = true →
      decide (rank b.1 ≤ rank c.1) = true → decide (rank a.1 ≤ rank c.1) = true := by
    intro a b c hab hbc
    apply decide_eq_true (le_trans (of_decide_eq_true hab) (of_decide_eq_true hbc))
  have htotal : ∀ a b : κ × α,
      (decide (rank a.1 ≤ rank b.1) || decide (rank b.1 ≤ rank a.1)) = true := by
    intro a b
    simpa using le_total (rank a.1) (rank b.1)
  have hsorted := List.pairwise_mergeSort htrans htotal m
  have hkeys : ((m.mergeSort (fun a b => rank a.1 ≤ rank b.1)).map Prod.fst).Nodup :=
    ((List.mergeSort_perm _ _).map _).nodup_iff.mpr h
  have hdistinct := List.pairwise_map.mp hkeys
  apply (hsorted.and hdistinct).imp
  rintro a b ⟨hle, hne⟩
  apply lt_of_le_of_ne (of_decide_eq_true hle)
  apply hrank.ne hne

end Dict
