import Mathlib.Data.List.DropRight
import Mathlib.Tactic.Use

/-!
# Texts as lists

Trimming a text of the elements that satisfy a predicate, splitting it at the first
occurrence of an element, and reading it in lines through a buffer of bounded size.

`readLines` reads a text piece by piece: a piece ends with the line or when the buffer is
full.  What is read from the pieces of a text is what is read from the pieces of its lines
(`filterMap_readLines`), and a line that fits the buffer is one piece (`readLines_short`).
-/

namespace Text

variable {α β : Type*}

/-! ## Trimming -/

section Trim

variable (p : α → Bool)

/-- The text without the elements at its ends that satisfy `p`. -/
def trimBy (l : List α) : List α := (l.dropWhile p).rdropWhile p

variable {p}

theorem dropWhile_append_cons {c : α} (hc : p c = false) (a b : List α) :
  (a ++ c :: b).dropWhile p = a.dropWhile p ++ c :: b
  := by
  induction a with
  | nil => simp [hc]
  | cons x a ih =>
    rw [List.cons_append, List.dropWhile_cons, List.dropWhile_cons, ih]
    split
    · rfl
    · rfl

theorem rdropWhile_append_cons {c : α} (hc : p c = false) (a b : List α) :
  (a ++ c :: b).rdropWhile p = a ++ c :: b.rdropWhile p
  := by
  rw [List.rdropWhile, List.reverse_append, List.reverse_cons, List.append_assoc,
    List.singleton_append, dropWhile_append_cons hc, List.reverse_append, List.reverse_cons,
    List.reverse_reverse, List.append_assoc, List.singleton_append, List.rdropWhile]

/-- Trimming around an element that is not trimmed. -/
theorem trimBy_append_cons {c : α} (hc : p c = false) (a b : List α) :
  trimBy p (a ++ c :: b) = a.dropWhile p ++ c :: b.rdropWhile p
  := by
  rw [trimBy, dropWhile_append_cons hc, rdropWhile_append_cons hc]

/-- Trimming leaves nothing exactly when all elements are trimmed. -/
theorem trimBy_eq_nil_iff {l : List α} :
  trimBy p l = [] ↔ ∀ x ∈ l, p x = true
  := by
  rw [trimBy, List.rdropWhile_eq_nil_iff]
  constructor
  · intro h
    by_contra hex
    push Not at hex
    obtain ⟨x, hx, hpx⟩ := hex
    obtain ⟨a, b, rfl⟩ := List.append_of_mem hx
    have hpx' : p x = false := by simpa using hpx
    rw [dropWhile_append_cons hpx'] at h
    apply hpx (h x (by simp))
  · intro h x hx
    apply h x (List.dropWhile_subset p hx)

/-- A trimmed text that is not empty starts and ends with elements that are not trimmed. -/
theorem exists_of_trimBy_ne_nil {l : List α} (h : trimBy p l ≠ []) :
  ∃ a c b, l = a ++ c :: b ∧ (∀ x ∈ a, p x = true) ∧ p c = false
  := by
  have hne : l.dropWhile p ≠ [] := by
    intro heq
    apply h
    rw [trimBy, heq, List.rdropWhile_nil]
  obtain ⟨c, b, hcb⟩ := List.exists_cons_of_ne_nil hne
  use l.takeWhile p, c, b
  and_intros
  · rw [← hcb, List.takeWhile_append_dropWhile]
  · intro x hx
    apply List.mem_takeWhile_imp hx
  · have hhead := List.head_dropWhile_not p hne
    simpa [hcb] using hhead

theorem mem_of_mem_trimBy {l : List α} {x : α} (h : x ∈ trimBy p l) :
  x ∈ l
  := by
  apply List.dropWhile_subset p
  apply (List.rdropWhile_prefix p _).subset h

/-- A list without such elements is not trimmed. -/
theorem trimBy_eq_self {l : List α} (h : ∀ x ∈ l, p x = false) :
  trimBy p l = l
  := by
  have hhead : l.dropWhile p = l := by
    rw [List.dropWhile_eq_self_iff]
    intro hpos
    simpa using h _ (List.getElem_mem hpos)
  rw [trimBy, hhead, List.rdropWhile_eq_self_iff]
  intro hne
  simpa using h _ (List.getLast_mem hne)

/-- What is trimmed at the end may be added. -/
theorem trimBy_append_of_all {w : List α} (hw : ∀ x ∈ w, p x = true) (l : List α) :
  trimBy p (l ++ w) = trimBy p l
  := by
  by_cases h : trimBy p l = []
  · rw [h, trimBy_eq_nil_iff]
    intro x hx
    rcases List.mem_append.mp hx with hx | hx
    · apply trimBy_eq_nil_iff.mp h x hx
    · apply hw x hx
  · obtain ⟨a, c, b, rfl, -, hc⟩ := exists_of_trimBy_ne_nil h
    have hb : (b ++ w).rdropWhile p = b.rdropWhile p := by
      rw [List.rdropWhile, List.reverse_append, List.dropWhile_append_of_pos, List.rdropWhile]
      intro x hx
      apply hw x (List.mem_reverse.mp hx)
    rw [List.append_assoc, List.cons_append, trimBy_append_cons hc, trimBy_append_cons hc, hb]

/-- What is trimmed at the start may be added. -/
theorem trimBy_append_left {w : List α} (hw : ∀ x ∈ w, p x = true) (l : List α) :
  trimBy p (w ++ l) = trimBy p l
  := by
  rw [trimBy, List.dropWhile_append_of_pos hw, trimBy]

theorem trimBy_dropWhile (l : List α) :
  trimBy p (l.dropWhile p) = trimBy p l
  := by
  rw [trimBy, List.dropWhile_idempotent, trimBy]

theorem trimBy_rdropWhile (l : List α) :
  trimBy p (l.rdropWhile p) = trimBy p l
  := by
  have hsplit := List.rdropWhile_append_rtakeWhile (p := p) (l := l)
  have hall : ∀ x ∈ l.rtakeWhile p, p x = true := fun x hx => List.mem_rtakeWhile_imp hx
  conv_rhs => rw [← hsplit]
  rw [trimBy_append_of_all hall]

/-- Trimming twice is trimming once. -/
theorem trimBy_trimBy (l : List α) :
  trimBy p (trimBy p l) = trimBy p l
  := by
  conv_lhs => rw [trimBy.eq_def p l]
  rw [trimBy_rdropWhile, trimBy_dropWhile]

/-- What trimming leaves is a part of the text, after elements that are trimmed. -/
theorem exists_append_trimBy (l : List α) :
  ∃ a b, l = a ++ (trimBy p l ++ b) ∧ ∀ x ∈ a, p x = true
  := by
  use l.takeWhile p, (l.dropWhile p).rtakeWhile p
  constructor
  · rw [trimBy, List.rdropWhile_append_rtakeWhile, List.takeWhile_append_dropWhile]
  · intro x hx
    apply List.mem_takeWhile_imp hx

/-- A trimmed text does not start with an element that is trimmed. -/
theorem dropWhile_trimBy (l : List α) :
  (trimBy p l).dropWhile p = trimBy p l
  := by
  cases h : trimBy p l with
  | nil => rfl
  | cons c t =>
    obtain ⟨w, hw⟩ := List.rdropWhile_prefix p (l.dropWhile p)
    rw [trimBy] at h
    rw [h] at hw
    have hne : l.dropWhile p ≠ [] := by
      rw [← hw]
      simp
    have hhead := List.head_dropWhile_not p hne
    have hc : p c = false := by simpa [← hw] using hhead
    rw [List.dropWhile_cons_of_neg (by simp [hc])]

/-- A text that is divided where `p` first fails. -/
theorem span_append {a b : List α} (ha : ∀ x ∈ a, p x = true) (hb : ∀ x ∈ b.head?, p x = false) :
  (a ++ b).takeWhile p = a ∧ (a ++ b).dropWhile p = b
  := by
  have hhead : b.takeWhile p = [] ∧ b.dropWhile p = b := by
    cases b with
    | nil => exact ⟨rfl, rfl⟩
    | cons c b =>
      have hc := hb c rfl
      simp [hc]
  rw [List.takeWhile_append_of_pos ha, List.dropWhile_append_of_pos ha, hhead.1, hhead.2,
    List.append_nil]
  exact ⟨rfl, rfl⟩

/-- A part at the start of a text that does not start with an element that is trimmed. -/
theorem dropWhile_of_append {a b : List α} (h : (a ++ b).dropWhile p = a ++ b) :
  a.dropWhile p = a
  := by
  cases a with
  | nil => rfl
  | cons c a =>
    rw [List.cons_append, List.dropWhile_cons] at h
    split_ifs at h with hc
    · have hlen := congrArg List.length h
      have hle := List.length_dropWhile_le p (a ++ b)
      rw [List.length_cons] at hlen
      omega
    · rw [List.dropWhile_cons_of_neg hc]

end Trim

/-! ## Splitting at an element -/

section Split

variable [DecidableEq α]

/-- The parts of a text before and after the first occurrence of `c`. -/
def splitFirst (c : α) : List α → Option (List α × List α)
  | [] => none
  | x :: l => if x = c then some ([], l) else (splitFirst c l).map (fun s => (x :: s.1, s.2))

theorem splitFirst_append {c : α} (b : List α) :
  ∀ {a : List α}, c ∉ a → splitFirst c (a ++ c :: b) = some (a, b)
  | [], _ => by simp [splitFirst]
  | x :: a, h => by
    have hx : x ≠ c := fun heq => h (by simp [heq])
    have ha : c ∉ a := fun hmem => h (List.mem_cons_of_mem _ hmem)
    rw [List.cons_append, splitFirst, if_neg hx, splitFirst_append b ha]
    rfl

theorem splitFirst_eq_none {c : α} :
  ∀ {l : List α}, c ∉ l → splitFirst c l = none
  | [], _ => rfl
  | x :: l, h => by
    have hx : x ≠ c := fun heq => h (by simp [heq])
    have hl : c ∉ l := fun hmem => h (List.mem_cons_of_mem _ hmem)
    rw [splitFirst, if_neg hx, splitFirst_eq_none hl]
    rfl

/-- `splitFirst` by the elements before and after. -/
theorem splitFirst_eq (c : α) (l : List α) :
  splitFirst c l
    = if c ∈ l then some (l.takeWhile (fun x => x ≠ c), (l.dropWhile (fun x => x ≠ c)).tail)
      else none
  := by
  split_ifs with h
  · obtain ⟨a, b, rfl, hna⟩ := List.eq_append_cons_of_mem h
    have hall : ∀ x ∈ a, decide (x ≠ c) = true := by
      intro x hx
      have hne : x ≠ c := fun heq => hna (heq ▸ hx)
      simpa using hne
    rw [splitFirst_append b hna, List.takeWhile_append_of_pos hall,
      List.dropWhile_append_of_pos hall]
    simp
  · apply splitFirst_eq_none h

/-- The parts before and after the last occurrence of an element are determined. -/
theorem append_cons_inj {c : α} {a b x y : List α} (hx : c ∉ x) (hy : c ∉ y)
    (h : a ++ c :: x = b ++ c :: y) :
  a = b ∧ x = y
  := by
  have hrev : x.reverse ++ c :: a.reverse = y.reverse ++ c :: b.reverse := by
    have h' := congrArg List.reverse h
    simpa using h'
  have hsplit : some (x.reverse, a.reverse) = some (y.reverse, b.reverse) := by
    rw [← splitFirst_append a.reverse (by simpa using hx),
      ← splitFirst_append b.reverse (by simpa using hy), hrev]
  obtain ⟨hxy, hab⟩ := Prod.mk.inj (Option.some_inj.mp hsplit)
  exact ⟨List.reverse_injective hab, List.reverse_injective hxy⟩

/-- The parts of a text before and after the last occurrence of `c`. -/
def splitLast (c : α) (l : List α) : Option (List α × List α) :=
  (splitFirst c l.reverse).map (fun s => (s.2.reverse, s.1.reverse))

theorem splitLast_append {c : α} (a : List α) {b : List α} (h : c ∉ b) :
  splitLast c (a ++ c :: b) = some (a, b)
  := by
  have hrev : (a ++ c :: b).reverse = b.reverse ++ c :: a.reverse := by simp
  rw [splitLast, hrev, splitFirst_append a.reverse (by simpa using h), Option.map_some,
    List.reverse_reverse, List.reverse_reverse]

theorem splitLast_eq_none {c : α} {l : List α} (h : c ∉ l) :
  splitLast c l = none
  := by
  rw [splitLast, splitFirst_eq_none (by simpa using h), Option.map_none]

/-- `splitLast` by the elements before and after. -/
theorem splitLast_eq_some_iff {c : α} {l a b : List α} :
  splitLast c l = some (a, b) ↔ l = a ++ c :: b ∧ c ∉ b
  := by
  constructor
  · intro h
    by_cases hc : c ∈ l
    · obtain ⟨y, x, hrev, hy⟩ := List.eq_append_cons_of_mem (List.mem_reverse.mpr hc)
      have hl : l = x.reverse ++ c :: y.reverse := by
        rw [← List.reverse_reverse l, hrev]
        simp
      have hy' : c ∉ y.reverse := by simpa using hy
      rw [hl, splitLast_append _ hy'] at h
      obtain ⟨rfl, rfl⟩ := Prod.mk.inj (Option.some_inj.mp h)
      exact ⟨hl, hy'⟩
    · rw [splitLast_eq_none hc] at h
      cases h
  · rintro ⟨rfl, hb⟩
    apply splitLast_append a hb

end Split

/-! ## Joining parts -/

/-- The last part is joined behind the others. -/
theorem intercalate_append_singleton (sep a : List α) {parts : List (List α)}
    (h : parts ≠ []) :
  sep.intercalate (parts ++ [a]) = sep.intercalate parts ++ sep ++ a
  := by
  induction parts with
  | nil => cases h rfl
  | cons b parts ih =>
    cases parts with
    | nil => simp
    | cons c parts =>
      have hrec := ih (List.cons_ne_nil c parts)
      rw [List.cons_append] at hrec
      rw [List.cons_append, List.cons_append, List.intercalate_cons_cons, hrec,
        List.intercalate_cons_cons]
      simp only [List.append_assoc]

/-- The elements of joined parts are those of the parts and of the separator. -/
theorem mem_intercalate {sep : List α} {parts : List (List α)} {x : α}
    (h : x ∈ sep.intercalate parts) :
  x ∈ sep ∨ ∃ part ∈ parts, x ∈ part
  := by
  induction parts with
  | nil => cases h
  | cons a parts ih =>
    by_cases hnil : parts = []
    · rw [hnil, List.intercalate_singleton] at h
      exact Or.inr ⟨a, List.mem_cons_self, h⟩
    · rw [List.intercalate_cons_of_ne_nil hnil, List.mem_append, List.mem_append] at h
      rcases h with (h | h) | h
      · exact Or.inr ⟨a, List.mem_cons_self, h⟩
      · exact Or.inl h
      · rcases ih h with hsep | ⟨part, hpart, hx⟩
        · exact Or.inl hsep
        · exact Or.inr ⟨part, List.mem_cons_of_mem _ hpart, hx⟩

/-- A reader that succeeds on each part succeeds on all. -/
theorem mapM_eq_some {f : α → Option β} {g : α → β} {parts : List α}
    (h : ∀ part ∈ parts, f part = some (g part)) :
  parts.mapM f = some (parts.map g)
  := by
  induction parts with
  | nil => rfl
  | cons a parts ih =>
    rw [List.mapM_cons, h a List.mem_cons_self,
      ih (fun part hpart => h part (List.mem_cons_of_mem _ hpart))]
    rfl

/-- A test that succeeds on each part picks as the test does. -/
theorem filterM_eq_some {β : Type} {p : β → Option Bool} {q : β → Bool} {parts : List β}
    (h : ∀ part ∈ parts, p part = some (q part)) :
  parts.filterM p = some (parts.filter q)
  := by
  have haux : ∀ acc, List.filterAuxM p parts acc = some ((parts.filter q).reverse ++ acc) := by
    induction parts with
    | nil => exact fun acc => rfl
    | cons b parts ih =>
      intro acc
      rw [List.filterAuxM, h b List.mem_cons_self, Option.bind_eq_bind, Option.bind_some,
        ih (fun part hpart => h part (List.mem_cons_of_mem _ hpart))]
      cases hq : q b
      · rw [List.filter_cons_of_neg (by simp [hq])]
        rfl
      · rw [List.filter_cons_of_pos hq, List.reverse_cons, List.append_assoc]
        rfl
  rw [List.filterM, haux, Option.bind_eq_bind, Option.bind_some, List.append_nil,
    List.reverse_reverse]
  rfl

/-- A reader succeeds on a part and those after it when it does on both. -/
theorem mapM_cons_eq_some {f : α → Option β} {a : α} {parts : List α} {results : List β} :
  (a :: parts).mapM f = some results
    ↔ ∃ b rest, f a = some b ∧ parts.mapM f = some rest ∧ results = b :: rest
  := by
  rw [List.mapM_cons]
  constructor
  · intro h
    obtain ⟨b, hb, h⟩ := Option.bind_eq_some_iff.mp h
    obtain ⟨rest, hrest, h⟩ := Option.bind_eq_some_iff.mp h
    exact ⟨b, rest, hb, hrest, (Option.some_inj.mp h).symm⟩
  · rintro ⟨b, rest, hb, hrest, rfl⟩
    rw [hb, hrest]
    rfl

/-- A reader that succeeds gives a result for each part. -/
theorem length_of_mapM {f : α → Option β} {parts : List α} {results : List β}
    (h : parts.mapM f = some results) :
  results.length = parts.length
  := by
  induction parts generalizing results with
  | nil =>
    obtain rfl := Option.some_inj.mp h
    rfl
  | cons a parts ih =>
    obtain ⟨b, rest, -, hrest, rfl⟩ := mapM_cons_eq_some.mp h
    rw [List.length_cons, List.length_cons, ih hrest]

/-! ## Reading lines -/

section Lines

variable [DecidableEq α] (sep : α)

/-- Read at most `n` elements, up to and with the first separator: the piece and the rest. -/
def readLine : ℕ → List α → List α × List α
  | 0, s => ([], s)
  | _ + 1, [] => ([], [])
  | n + 1, c :: s =>
    if c = sep then ([c], s) else (c :: (readLine n s).1, (readLine n s).2)

/-- Read pieces of at most `n` elements until the text ends. -/
def readLines (n : ℕ) : ℕ → List α → List (List α)
  | 0, _ => []
  | _ + 1, [] => []
  | fuel + 1, c :: s =>
    (readLine sep n (c :: s)).1 :: readLines n fuel (readLine sep n (c :: s)).2

variable {sep}

theorem readLines_nil (n fuel : ℕ) :
  readLines sep n fuel [] = []
  := by
  cases fuel <;> rfl

theorem readLine_append (n : ℕ) (s : List α) :
  (readLine sep n s).1 ++ (readLine sep n s).2 = s
  := by
  induction n generalizing s with
  | zero => rfl
  | succ n ih =>
    cases s with
    | nil => rfl
    | cons c s =>
      rw [readLine]
      split
      · rfl
      · rw [List.cons_append, ih]

variable (sep) in
/-- Reading takes at least one element. -/
theorem readLine_rest_length {n : ℕ} (hn : 0 < n) (c : α) (s : List α) :
  (readLine sep n (c :: s)).2.length ≤ s.length
  := by
  obtain ⟨n, rfl⟩ := Nat.exists_eq_succ_of_ne_zero (Nat.ne_of_gt hn)
  have hsplit : ((readLine sep n s).1 ++ (readLine sep n s).2).length = s.length := by
    rw [readLine_append]
  rw [List.length_append] at hsplit
  rw [readLine]
  split
  · apply le_refl
  · show (readLine sep n s).2.length ≤ s.length
    omega

/-- A line that ends before the buffer is full is read with its separator. -/
theorem readLine_line {l : List α} (hl : sep ∉ l) {n : ℕ} (hn : l.length < n) (s : List α) :
  readLine sep n (l ++ sep :: s) = (l ++ [sep], s)
  := by
  induction l generalizing n with
  | nil =>
    obtain ⟨n, rfl⟩ := Nat.exists_eq_succ_of_ne_zero (Nat.ne_of_gt hn)
    simp [readLine]
  | cons c l ih =>
    obtain ⟨n, rfl⟩ := Nat.exists_eq_succ_of_ne_zero (Nat.ne_of_gt (Nat.zero_lt_of_lt hn))
    have hc : c ≠ sep := fun heq => hl (by simp [heq])
    have hl' : sep ∉ l := fun hmem => hl (List.mem_cons_of_mem _ hmem)
    rw [List.cons_append, readLine, if_neg hc, ih hl' (Nat.lt_of_succ_lt_succ hn)]
    rfl

/-- A full buffer of a longer line is read without a separator. -/
theorem readLine_full {l : List α} (hl : sep ∉ l) (s : List α) :
  readLine sep l.length (l ++ s) = (l, s)
  := by
  induction l with
  | nil => rfl
  | cons c l ih =>
    have hc : c ≠ sep := fun heq => hl (by simp [heq])
    have hl' : sep ∉ l := fun hmem => hl (List.mem_cons_of_mem _ hmem)
    rw [List.length_cons, List.cons_append, readLine, if_neg hc, ih hl']

/-- A last line that fits the buffer is read whole. -/
theorem readLine_last {l : List α} (hl : sep ∉ l) {n : ℕ} (hn : l.length ≤ n) :
  readLine sep n l = (l, [])
  := by
  induction l generalizing n with
  | nil => cases n <;> rfl
  | cons c l ih =>
    obtain ⟨n, rfl⟩ := Nat.exists_eq_succ_of_ne_zero (Nat.ne_of_gt (Nat.zero_lt_of_lt hn))
    have hc : c ≠ sep := fun heq => hl (by simp [heq])
    have hl' : sep ∉ l := fun hmem => hl (List.mem_cons_of_mem _ hmem)
    rw [readLine, if_neg hc, ih hl' (Nat.le_of_succ_le_succ hn)]

variable (sep) in
/-- The pieces of a text are the text. -/
theorem readLines_flatten {n : ℕ} (hn : 0 < n) (fuel : ℕ) (s : List α) (hs : s.length ≤ fuel) :
  (readLines sep n fuel s).flatten = s
  := by
  induction fuel generalizing s with
  | zero =>
    rw [List.length_eq_zero_iff.mp (Nat.le_zero.mp hs)]
    rfl
  | succ fuel ih =>
    cases s with
    | nil => rfl
    | cons c s =>
      rw [readLines, List.flatten_cons, ih, readLine_append]
      have hrest := readLine_rest_length sep hn c s
      rw [List.length_cons] at hs
      omega

/-- Fuel beyond the length of the text does not matter. -/
theorem readLines_fuel {n : ℕ} (hn : 0 < n) :
  ∀ {fuel : ℕ} {s : List α}, s.length ≤ fuel → readLines sep n fuel s = readLines sep n s.length s
  := by
  intro fuel
  induction fuel using Nat.strong_induction_on with
  | _ fuel ih =>
    intro s hs
    cases s with
    | nil => cases fuel <;> rfl
    | cons c s =>
      obtain ⟨fuel, rfl⟩ := Nat.exists_eq_succ_of_ne_zero (Nat.ne_of_gt (Nat.zero_lt_of_lt hs))
      have hrest := readLine_rest_length sep hn c s
      rw [List.length_cons] at hs
      rw [readLines, List.length_cons, readLines, ih fuel (by omega) (by omega),
        ih s.length (by omega) hrest]

/-- Reading the first piece and then the rest. -/
theorem readLines_step {n : ℕ} (hn : 0 < n) {l s : List α} (hne : l ++ s ≠ [])
    (h : readLine sep n (l ++ s) = (l, s)) :
  readLines sep n (l ++ s).length (l ++ s) = l :: readLines sep n s.length s
  := by
  obtain ⟨c, t, hct⟩ := List.exists_cons_of_ne_nil hne
  have hlen := congrArg List.length hct
  have hl : l ≠ [] := by
    rintro rfl
    obtain ⟨n, rfl⟩ := Nat.exists_eq_succ_of_ne_zero (Nat.ne_of_gt hn)
    rw [List.nil_append] at hct h
    rw [hct, readLine] at h
    split at h
    · simp at h
    · simp at h
  have hpos := List.length_pos_of_ne_nil hl
  rw [List.length_append, List.length_cons] at hlen
  have hfuel : readLines sep n t.length s = readLines sep n s.length s := by
    apply readLines_fuel hn
    omega
  rw [hct, List.length_cons, readLines, ← hct, h, hfuel]

/-- A line that fits the buffer is one piece, or none when it is empty. -/
theorem readLines_short {l : List α} (hl : sep ∉ l) {n : ℕ} (hn : 0 < n) (hlen : l.length ≤ n) :
  readLines sep n l.length l = if l = [] then [] else [l]
  := by
  split_ifs with hnil
  · rw [hnil]
    rfl
  · have hread := readLine_last hl hlen
    have hstep := readLines_step hn (l := l) (s := []) (by simpa using hnil) (by simpa using hread)
    simpa [readLines_nil] using hstep

/-- A line has no separator, and its elements are elements of the text. -/
theorem mem_splitOn {s line : List α} (h : line ∈ s.splitOn sep) :
  sep ∉ line ∧ ∀ x ∈ line, x ∈ s
  := by
  induction hlen : s.length using Nat.strong_induction_on generalizing s with
  | _ len ih =>
    subst hlen
    by_cases hmem : sep ∈ s
    · obtain ⟨l, rest, rfl, hl⟩ := List.eq_append_cons_of_mem hmem
      rw [List.splitOn_append_cons_self_of_not_mem hl rest] at h
      rcases List.mem_cons.mp h with rfl | h
      · constructor
        · apply hl
        · intro x hx
          apply List.mem_append_left _ hx
      · obtain ⟨hsep, hsub⟩ := ih rest.length (by simp; omega) h rfl
        constructor
        · apply hsep
        · intro x hx
          apply List.mem_append_right _ (List.mem_cons_of_mem _ (hsub x hx))
    · rw [List.splitOn_eq_singleton hmem, List.mem_singleton] at h
      rw [h]
      exact ⟨hmem, fun x hx => hx⟩

/-- The lines of a text that was written line by line. -/
theorem splitOn_unlines {lines : List (List α)} (h : ∀ line ∈ lines, sep ∉ line) :
  (lines.flatMap (fun line => line ++ [sep])).splitOn sep = lines ++ [[]]
  := by
  induction lines with
  | nil => rfl
  | cons line lines ih =>
    have hline := h line List.mem_cons_self
    have htail : ∀ l ∈ lines, sep ∉ l := fun l hl => h l (List.mem_cons_of_mem _ hl)
    rw [List.flatMap_cons, List.append_assoc, List.singleton_append,
      List.splitOn_append_cons_self_of_not_mem hline, ih htail, List.cons_append]

/-- A piece has no separator but at its end. -/
theorem mem_readLines {n fuel : ℕ} {s piece : List α} (h : piece ∈ readLines sep n fuel s) :
  ∃ l, sep ∉ l ∧ (piece = l ∨ piece = l ++ [sep])
  := by
  have hline : ∀ (n : ℕ) (s : List α), ∃ l, sep ∉ l
      ∧ ((readLine sep n s).1 = l ∨ (readLine sep n s).1 = l ++ [sep]) := by
    intro n
    induction n with
    | zero =>
      intro s
      exact ⟨[], by simp, Or.inl rfl⟩
    | succ n ih =>
      intro s
      cases s with
      | nil => exact ⟨[], by simp, Or.inl rfl⟩
      | cons c s =>
        rw [readLine]
        split_ifs with hc
        · exact ⟨[], by simp, Or.inr (by simp [hc])⟩
        · obtain ⟨l, hl, hread⟩ := ih s
          use c :: l
          constructor
          · simp [hl, Ne.symm hc]
          · rcases hread with hread | hread
            · left
              rw [hread]
            · right
              rw [hread, List.cons_append]
  induction fuel generalizing s with
  | zero => simp [readLines] at h
  | succ fuel ih =>
    cases s with
    | nil => simp [readLines] at h
    | cons c s =>
      rw [readLines] at h
      rcases List.mem_cons.mp h with rfl | h
      · apply hline
      · apply ih h

/-- What is read from the pieces of a text is what is read from the pieces of its lines, when
a separator at the end of a piece does not matter. -/
theorem filterMap_readLines {act : List α → Option β} (hnil : act [] = none)
    (hsep : ∀ l, act (l ++ [sep]) = act l) {n : ℕ} (hn : 0 < n) (s : List α) :
  (readLines sep n s.length s).filterMap act
    = (s.splitOn sep).flatMap (fun l => (readLines sep n l.length l).filterMap act)
  := by
  induction hlen : s.length using Nat.strong_induction_on generalizing s with
  | _ len ih =>
    subst hlen
    by_cases hmem : sep ∈ s
    · obtain ⟨l, rest, rfl, hl⟩ := List.eq_append_cons_of_mem hmem
      have hsplit := List.splitOn_append_cons_self_of_not_mem hl rest
      rcases Nat.lt_or_ge l.length n with hlt | hge
      · -- the line is one piece
        have hstep := readLines_step hn (l := l ++ [sep]) (s := rest) (by simp)
          (by simpa using readLine_line hl hlt rest)
        have happ : l ++ sep :: rest = (l ++ [sep]) ++ rest := by simp
        rw [hsplit, List.flatMap_cons, ← ih rest.length (by simp; omega) rest rfl, happ, hstep,
          List.filterMap_cons, hsep, readLines_short hl hn hlt.le]
        split_ifs with hlnil
        · rw [hlnil, hnil]
          rfl
        · cases hact : act l with
          | none => simp [hact]
          | some b => simp [hact]
      · -- the first piece is a full buffer of the line
        obtain ⟨a, b, rfl, ha⟩ : ∃ a b, l = a ++ b ∧ a.length = n :=
          ⟨l.take n, l.drop n, (List.take_append_drop n l).symm, List.length_take_of_le hge⟩
        have hsa : sep ∉ a := fun h => hl (List.mem_append_left _ h)
        have hsb : sep ∉ b := fun h => hl (List.mem_append_right _ h)
        have hane : a ≠ [] := by
          intro hnil
          rw [hnil, List.length_nil] at ha
          omega
        have hstep : ∀ t, readLines sep n (a ++ t).length (a ++ t)
            = a :: readLines sep n t.length t := by
          intro t
          apply readLines_step hn (by simp [hane])
          rw [← ha]
          apply readLine_full hsa
        have happ : (a ++ b) ++ sep :: rest = a ++ (b ++ sep :: rest) := by simp
        have hsplit' := List.splitOn_append_cons_self_of_not_mem hsb rest
        have hrec := ih (b ++ sep :: rest).length (by simp; omega) (b ++ sep :: rest) rfl
        rw [hsplit', List.flatMap_cons] at hrec
        rw [hsplit, List.flatMap_cons, happ, hstep, hstep, List.filterMap_cons, hrec,
          List.filterMap_cons]
        cases act a with
        | none => rfl
        | some c => rfl
    · rw [List.splitOn_eq_singleton hmem, List.flatMap_singleton]

end Lines

end Text
