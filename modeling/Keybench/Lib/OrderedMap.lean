import Mathlib.Data.List.Basic
import Mathlib.Data.List.Pairwise
import Mathlib.Order.Lattice
import Mathlib.Tactic.Tauto
import Mathlib.Tactic.Use

/-!
# Ordered finite maps

`OrderedMap K V` is a finite map from a linearly ordered type of keys, kept as the list
of its entries in strictly ascending key order.  `lookup`, `insert`, `erase` and the
half-open `slice` are characterised by membership of entries, so a map is the partial
function `lookup` with a finite domain.
-/

/-- The entries of a finite map, in strictly ascending key order. -/
structure OrderedMap (K V : Type*) [LinearOrder K] where
  /-- The entries. -/
  entries : List (K × V)
  /-- The keys ascend strictly. -/
  sorted : entries.Pairwise (fun e f => e.1 < f.1)

namespace OrderedMap

variable {K V : Type*} [LinearOrder K]

@[ext]
theorem ext {m m' : OrderedMap K V} (h : m.entries = m'.entries) :
  m = m'
  := by
  cases m
  cases m'
  congr

/-- The map without entries. -/
def empty : OrderedMap K V := ⟨[], List.Pairwise.nil⟩

/-- The value of a key. -/
def lookup (m : OrderedMap K V) (k : K) : Option V :=
  (m.entries.find? (fun e => e.1 = k)).map Prod.snd

/-- Bind `k` to `v`. -/
def insert (m : OrderedMap K V) (k : K) (v : V) : OrderedMap K V where
  entries := m.entries.filter (fun e => e.1 < k) ++ (k, v) :: m.entries.filter (fun e => k < e.1)
  sorted := by
    apply List.pairwise_append.mpr
    and_intros
    · apply m.sorted.filter
    · apply List.pairwise_cons.mpr
      constructor
      · intro e he
        simpa using (List.mem_filter.mp he).2
      · apply m.sorted.filter
    · intro e he f hf
      have hek : e.1 < k := by simpa using (List.mem_filter.mp he).2
      rcases List.mem_cons.mp hf with rfl | hf
      · apply hek
      · have hkf : k < f.1 := by simpa using (List.mem_filter.mp hf).2
        apply hek.trans hkf

/-- Unbind `k`. -/
def erase (m : OrderedMap K V) (k : K) : OrderedMap K V where
  entries := m.entries.filter (fun e => e.1 ≠ k)
  sorted := m.sorted.filter _

/-- The entries of the half-open interval from `lo` to `hi`. -/
def slice (m : OrderedMap K V) (lo hi : K) : List (K × V) :=
  m.entries.filter (fun e => lo ≤ e.1 ∧ e.1 < hi)

/-- The longest initial part of a list whose keys are below `hi`. -/
def upTo (hi : K) (l : List (K × V)) : List (K × V) :=
  l.takeWhile (fun e => e.1 < hi)

/-! ## Lookup -/

/-- Two entries of a map with one key are equal. -/
theorem eq_of_key_eq {m : OrderedMap K V} {e f : K × V} (he : e ∈ m.entries) (hf : f ∈ m.entries)
    (h : e.1 = f.1) :
  e = f
  := by
  have hunique : m.entries.Pairwise (fun e f => e.1 = f.1 → e = f) := by
    apply m.sorted.imp
    intro e f hlt heq
    apply absurd heq hlt.ne
  have hsymm : ∀ e f : K × V, (e.1 = f.1 → e = f) → f.1 = e.1 → f = e :=
    fun e f hef hfe => (hef hfe.symm).symm
  apply List.Pairwise.forall_of_forall_of_flip (fun _ _ _ => rfl) hunique _ he hf h
  apply hunique.imp
  apply hsymm

/-- `lookup` finds exactly the entries of the map. -/
theorem lookup_eq_some_iff (m : OrderedMap K V) (k : K) (v : V) :
  m.lookup k = some v ↔ (k, v) ∈ m.entries
  := by
  constructor
  · intro h
    obtain ⟨e, he, rfl⟩ := Option.map_eq_some_iff.mp h
    have hk : e.1 = k := by simpa using List.find?_some he
    rw [← hk]
    apply List.mem_of_find?_eq_some he
  · intro h
    cases hfind : m.entries.find? (fun e => e.1 = k) with
    | none =>
      have hall := List.find?_eq_none.mp hfind (k, v) h
      simp at hall
    | some e =>
      have hk : e.1 = k := by simpa using List.find?_some hfind
      have hmem := List.mem_of_find?_eq_some hfind
      have heq : e = (k, v) := eq_of_key_eq hmem h hk
      simp [lookup, hfind, heq]

/-- A key is absent exactly when no entry has it. -/
theorem lookup_eq_none_iff (m : OrderedMap K V) (k : K) :
  m.lookup k = none ↔ ∀ e ∈ m.entries, e.1 ≠ k
  := by
  simp [lookup]

/-- Partial functions with the same graph are equal. -/
theorem option_ext {m : OrderedMap K V} {k : K} {o : Option V}
    (h : ∀ v, (k, v) ∈ m.entries ↔ o = some v) :
  m.lookup k = o
  := by
  apply Option.ext
  intro v
  rw [← h v]
  apply lookup_eq_some_iff

@[simp]
theorem lookup_empty (k : K) :
  (empty : OrderedMap K V).lookup k = none
  := rfl

/-- `insert` binds its key and leaves the others. -/
theorem lookup_insert (m : OrderedMap K V) (k : K) (v : V) (k' : K) :
  (m.insert k v).lookup k' = if k' = k then some v else m.lookup k'
  := by
  apply option_ext
  intro w
  simp only [insert, List.mem_append, List.mem_filter, List.mem_cons, Prod.mk.injEq,
    decide_eq_true_eq]
  by_cases hk : k' = k
  · subst hk
    simp [eq_comm]
  · have hlt : k' < k ∨ k < k' := lt_or_gt_of_ne hk
    rw [if_neg hk, lookup_eq_some_iff]
    tauto

/-- `erase` unbinds its key and leaves the others. -/
theorem lookup_erase (m : OrderedMap K V) (k k' : K) :
  (m.erase k).lookup k' = if k' = k then none else m.lookup k'
  := by
  apply option_ext
  intro w
  by_cases hk : k' = k
  · simp [erase, hk]
  · simp [erase, hk, lookup_eq_some_iff]

/-! ## Size -/

/-- The entries on the two sides of a key are no more than all of them. -/
theorem length_filter_sides (l : List (K × V)) (k : K) :
  (l.filter (fun e => e.1 < k)).length + (l.filter (fun e => k < e.1)).length ≤ l.length
  := by
  induction l with
  | nil => simp
  | cons e l ih =>
    rcases lt_trichotomy e.1 k with h | h | h
    · simp [h, h.not_gt]
      omega
    · simp [h]
      omega
    · simp [h, h.not_gt]
      omega

theorem length_insert_le (m : OrderedMap K V) (k : K) (v : V) :
  (m.insert k v).entries.length ≤ m.entries.length + 1
  := by
  have hsides := length_filter_sides m.entries k
  simp only [insert, List.length_append, List.length_cons]
  omega

theorem length_erase_le (m : OrderedMap K V) (k : K) :
  (m.erase k).entries.length ≤ m.entries.length
  := List.length_filter_le _ _

/-! ## Slices -/

/-- A slice holds exactly the entries whose key lies in the interval. -/
theorem mem_slice (m : OrderedMap K V) (lo hi k : K) (v : V) :
  (k, v) ∈ m.slice lo hi ↔ m.lookup k = some v ∧ lo ≤ k ∧ k < hi
  := by
  simp [slice, lookup_eq_some_iff]

/-- A slice is in strictly ascending key order. -/
theorem slice_sorted (m : OrderedMap K V) (lo hi : K) :
  (m.slice lo hi).Pairwise (fun e f => e.1 < f.1)
  := m.sorted.filter _

/-- Two strictly ascending lists with the same entries are equal. -/
theorem sorted_unique {l l' : List (K × V)} (hl : l.Pairwise (fun e f => e.1 < f.1))
    (hl' : l'.Pairwise (fun e f => e.1 < f.1)) (h : ∀ e, e ∈ l ↔ e ∈ l') :
  l = l'
  := by
  have hnodup : ∀ {l : List (K × V)}, l.Pairwise (fun e f => e.1 < f.1) → l.Nodup := by
    intro l hl
    apply hl.imp
    rintro e _ hlt rfl
    apply lt_irrefl _ hlt
  apply List.Perm.eq_of_pairwise _ hl hl'
  · apply (List.perm_ext_iff_of_nodup (hnodup hl) (hnodup hl')).mpr h
  · intro e f _ _ hef hfe
    apply absurd hfe hef.asymm

/-- The entries with the keys `f a` to `f (a + n - 1)`, in the order of the numbers. -/
def window (m : OrderedMap K V) (f : ℕ → K) (a n : ℕ) : List (K × V) :=
  (List.range n).filterMap (fun j => (m.lookup (f (a + j))).map (fun v => (f (a + j), v)))

/-- When the keys are those of some numbers, in numeric order, a slice is a window. -/
theorem slice_eq_window {m : OrderedMap K V} {f : ℕ → K} {bound a n : ℕ}
    (hf : ∀ i j, i < bound → j < bound → (f i < f j ↔ i < j)) (hn : a + n < bound)
    (hkeys : ∀ k v, m.lookup k = some v → ∃ i < bound, f i = k) :
  m.slice (f a) (f (a + n)) = m.window f a n
  := by
  apply sorted_unique (slice_sorted _ _ _)
  · rw [window, List.pairwise_filterMap]
    apply List.pairwise_lt_range.imp_of_mem
    intro i j hi hj hij e he e' he'
    rw [List.mem_range] at hi hj
    obtain ⟨v, -, rfl⟩ := Option.map_eq_some_iff.mp he
    obtain ⟨w, -, rfl⟩ := Option.map_eq_some_iff.mp he'
    apply (hf _ _ (by omega) (by omega)).mpr
    omega
  · rintro ⟨k, v⟩
    rw [mem_slice, window, List.mem_filterMap]
    constructor
    · rintro ⟨hlook, hlo, hhi⟩
      obtain ⟨i, hi, rfl⟩ := hkeys k v hlook
      rw [hf _ _ hi hn] at hhi
      rw [← not_lt, hf _ _ hi (by omega)] at hlo
      obtain ⟨j, rfl⟩ : ∃ j, i = a + j := Nat.exists_eq_add_of_le (not_lt.mp hlo)
      exact ⟨j, List.mem_range.mpr (by omega), by rw [hlook, Option.map_some]⟩
    · rintro ⟨j, hj, he⟩
      rw [List.mem_range] at hj
      obtain ⟨w, hlook, heq⟩ := Option.map_eq_some_iff.mp he
      obtain ⟨rfl, rfl⟩ := Prod.mk.inj heq
      refine ⟨hlook, ?_, ?_⟩
      · rw [← not_lt, hf _ _ (by omega) (by omega)]
        omega
      · rw [hf _ _ (by omega) hn]
        omega

/-- A window has at most as many entries as numbers. -/
theorem length_window_le (m : OrderedMap K V) (f : ℕ → K) (a n : ℕ) :
  (m.window f a n).length ≤ n
  := by
  apply (List.length_filterMap_le _ _).trans
  rw [List.length_range]

/-- A window whose keys are there up to a number, and not from it on. -/
theorem window_eq_map {m : OrderedMap K V} {f : ℕ → K} {a n rest : ℕ} {v : V}
    (hin : ∀ j < n, m.lookup (f (a + j)) = some v)
    (hout : ∀ j < rest, m.lookup (f (a + (n + j))) = none) :
  m.window f a (n + rest) = (List.range n).map fun j => (f (a + j), v)
  := by
  have hleft : (List.range n).filterMap (fun j => (m.lookup (f (a + j))).map fun v => (f (a + j), v))
      = (List.range n).map fun j => (f (a + j), v) := by
    rw [← List.filterMap_eq_map]
    apply List.filterMap_congr
    intro j hj
    rw [hin j (List.mem_range.mp hj)]
    rfl
  have hright : ((List.range rest).map (n + ·)).filterMap
      (fun j => (m.lookup (f (a + j))).map fun v => (f (a + j), v)) = [] := by
    rw [List.filterMap_eq_nil_iff]
    intro j hj
    obtain ⟨i, hi, rfl⟩ := List.mem_map.mp hj
    rw [hout i (List.mem_range.mp hi)]
    rfl
  rw [window, List.range_add, List.filterMap_append, hleft, hright, List.append_nil]

/-- Maps with the same lookups are equal. -/
theorem ext_lookup {m m' : OrderedMap K V} (h : ∀ k, m.lookup k = m'.lookup k) :
  m = m'
  := by
  apply ext
  apply sorted_unique m.sorted m'.sorted
  rintro ⟨k, v⟩
  rw [← lookup_eq_some_iff, ← lookup_eq_some_iff, h]

@[simp]
theorem upTo_nil (hi : K) :
  upTo hi ([] : List (K × V)) = []
  := rfl

theorem upTo_cons_lt {hi : K} {e : K × V} (h : e.1 < hi) (l : List (K × V)) :
  upTo hi (e :: l) = e :: upTo hi l
  := List.takeWhile_cons_of_pos (decide_eq_true h)

theorem upTo_cons_ge {hi : K} {e : K × V} (h : ¬ e.1 < hi) (l : List (K × V)) :
  upTo hi (e :: l) = []
  := List.takeWhile_cons_of_neg (by simpa using h)

/-! ## A map split at a key -/

/-- The entries `a` below `k`, then the entries `b` from `k` on. -/
structure SplitAt (m : OrderedMap K V) (k : K) (a b : List (K × V)) : Prop where
  entries_eq : m.entries = a ++ b
  below : ∀ e ∈ a, e.1 < k
  above : ∀ e ∈ b, k ≤ e.1

namespace SplitAt

variable {m : OrderedMap K V} {k : K} {a b : List (K × V)} {v w : V}

/-- The entries from a key on ascend strictly. -/
theorem above_sorted (h : m.SplitAt k a b) :
  b.Pairwise (fun e f => e.1 < f.1)
  := by
  have hs := m.sorted
  rw [h.entries_eq] at hs
  apply (List.pairwise_append.mp hs).2.1

/-- Inserting a key puts it after the entries below it and before those above it, in place of
an entry with that key. -/
theorem insert_entries {same : List (K × V)} (h : m.entries = a ++ same ++ b)
    (ha : ∀ e ∈ a, e.1 < k) (hsame : ∀ e ∈ same, e.1 = k) (hb : ∀ e ∈ b, k < e.1) :
  (m.insert k v).entries = a ++ (k, v) :: b
  := by
  have hbelow : m.entries.filter (fun e => e.1 < k) = a := by
    rw [h, List.filter_append, List.filter_append, List.filter_eq_self.mpr,
      List.filter_eq_nil_iff.mpr, List.filter_eq_nil_iff.mpr, List.append_nil, List.append_nil]
    · intro e he
      simpa using (hb e he).le
    · intro e he
      simpa using (hsame e he).ge
    · intro e he
      simpa using ha e he
  have habove : m.entries.filter (fun e => k < e.1) = b := by
    rw [h, List.filter_append, List.filter_append, List.filter_eq_nil_iff.mpr,
      List.filter_eq_nil_iff.mpr, List.filter_eq_self.mpr, List.nil_append, List.nil_append]
    · intro e he
      simpa using hb e he
    · intro e he
      simpa using (hsame e he).le
    · intro e he
      simpa using (ha e he).le
  simp only [insert, hbelow, habove]

/-- Inserting a key that heads the upper part replaces its value. -/
theorem insert_present (h : m.SplitAt k a ((k, w) :: b)) :
  (m.insert k v).entries = a ++ (k, v) :: b
  := by
  have hentries : m.entries = a ++ [(k, w)] ++ b := by
    rw [h.entries_eq, List.append_assoc, List.singleton_append]
  apply insert_entries hentries h.below
  · simp
  · apply (List.pairwise_cons.mp h.above_sorted).1

/-- Inserting an absent key puts it between the two parts. -/
theorem insert_absent (h : m.SplitAt k a b) (hb : ∀ e ∈ b, e.1 ≠ k) :
  (m.insert k v).entries = a ++ (k, v) :: b
  := by
  have hentries : m.entries = a ++ [] ++ b := by
    rw [h.entries_eq, List.append_nil]
  apply insert_entries hentries h.below
  · simp
  · intro e he
    apply lt_of_le_of_ne (h.above e he) (hb e he).symm

/-- Erasing a key that heads the upper part removes that entry. -/
theorem erase_present (h : m.SplitAt k a ((k, w) :: b)) :
  (m.erase k).entries = a ++ b
  := by
  have ha : a.filter (fun e => e.1 ≠ k) = a := by
    apply List.filter_eq_self.mpr
    intro e he
    simpa using (h.below e he).ne
  have hb : b.filter (fun e => e.1 ≠ k) = b := by
    apply List.filter_eq_self.mpr
    intro e he
    simpa using ((List.pairwise_cons.mp h.above_sorted).1 e he).ne'
  simp only [erase, h.entries_eq, List.filter_append, ha]
  rw [List.filter_cons_of_neg (by simp), hb]

/-- Erasing an absent key changes nothing. -/
theorem erase_absent (h : m.SplitAt k a b) (hb : ∀ e ∈ b, e.1 ≠ k) :
  m.erase k = m
  := by
  apply ext
  apply List.filter_eq_self.mpr
  intro e he
  rw [h.entries_eq] at he
  rcases List.mem_append.mp he with he | he
  · simpa using (h.below e he).ne
  · simpa using hb e he

/-- A key that heads the upper part has the value of that entry. -/
theorem lookup_present (h : m.SplitAt k a ((k, w) :: b)) :
  m.lookup k = some w
  := by
  apply (lookup_eq_some_iff m k w).mpr
  rw [h.entries_eq]
  simp

/-- A key that does not occur in the upper part is absent. -/
theorem lookup_absent (h : m.SplitAt k a b) (hb : ∀ e ∈ b, e.1 ≠ k) :
  m.lookup k = none
  := by
  apply (lookup_eq_none_iff m k).mpr
  intro e he
  rw [h.entries_eq] at he
  rcases List.mem_append.mp he with he | he
  · apply (h.below e he).ne
  · apply hb e he

/-- Among ascending entries from `k` on, those below `hi` are the longest initial part. -/
theorem filter_eq_upTo {hi : K} (habove : ∀ e ∈ b, k ≤ e.1)
    (hsorted : b.Pairwise (fun e f => e.1 < f.1)) :
  b.filter (fun e => k ≤ e.1 ∧ e.1 < hi) = upTo hi b
  := by
  induction b with
  | nil => rfl
  | cons e b ih =>
    obtain ⟨hlt, hrest⟩ := List.pairwise_cons.mp hsorted
    have hge := habove e List.mem_cons_self
    by_cases hhi : e.1 < hi
    · rw [List.filter_cons_of_pos (by simp [hge, hhi]), upTo_cons_lt hhi,
        ih (fun f hf => habove f (List.mem_cons_of_mem e hf)) hrest]
    · rw [List.filter_cons_of_neg (by simp [hhi]), upTo_cons_ge hhi]
      apply List.filter_eq_nil_iff.mpr
      intro f hf
      have hle : hi ≤ f.1 := (not_lt.mp hhi).trans (hlt f hf).le
      simp [hle.not_gt]

/-- A slice is the longest initial part below `hi` of the entries from `lo` on. -/
theorem slice_eq {hi : K} (h : m.SplitAt k a b) :
  m.slice k hi = upTo hi b
  := by
  have ha : a.filter (fun e => k ≤ e.1 ∧ e.1 < hi) = [] := by
    apply List.filter_eq_nil_iff.mpr
    intro e he
    have hlt := (h.below e he).not_ge
    simp [hlt]
  rw [slice, h.entries_eq, List.filter_append, ha, List.nil_append,
    filter_eq_upTo h.above h.above_sorted]

end SplitAt

/-- Every map splits at every key. -/
theorem splitAt (m : OrderedMap K V) (k : K) :
  m.SplitAt k (m.entries.filter (fun e => e.1 < k)) (m.entries.filter (fun e => k ≤ e.1))
  := by
  constructor
  · apply sorted_unique m.sorted
    · apply List.pairwise_append.mpr
      and_intros
      · apply m.sorted.filter
      · apply m.sorted.filter
      · intro e he f hf
        have hek : e.1 < k := by simpa using (List.mem_filter.mp he).2
        have hkf : k ≤ f.1 := by simpa using (List.mem_filter.mp hf).2
        apply hek.trans_le hkf
    · intro e
      have hcases := lt_or_ge e.1 k
      simp only [List.mem_append, List.mem_filter, decide_eq_true_eq]
      tauto
  · intro e he
    simpa using (List.mem_filter.mp he).2
  · intro e he
    simpa using (List.mem_filter.mp he).2

end OrderedMap
