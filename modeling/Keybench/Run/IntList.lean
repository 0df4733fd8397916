import Keybench.Config.SizeGrammar
import Keybench.Run.Setup

/-!
# Lists of integers

`parse_int_list` reads integers that are separated by commas.  On any text it reads the integers
at the start of the text, with or without a comma after each, up to its bound
(`parseIntList_eq`).  It raises an integer below one to one before it converts the integer to an
`int`, so an entry is below one when the conversion makes it so (`parsesThreads_iff`).
-/

namespace Keybench

/-! ## Texts of integers -/

/-- An integer as it is written. -/
structure IntText where
  /-- The spaces before it. -/
  spaces : Bytes
  /-- The sign, if there is one. -/
  sign : Option Bool
  /-- The digits. -/
  digits : Bytes
  spaces_ok : ∀ c ∈ spaces, isspace c = true
  digits_ok : ∀ c ∈ digits, isdigit c = true
  nonempty : digits ≠ []

namespace IntText

/-- The text. -/
def text (n : IntText) : Bytes := n.spaces ++ (signText n.sign ++ n.digits)

/-- The value. -/
def value (n : IntText) : ℤ :=
  if n.sign = some true then -(ofDigits 10 n.digits : ℤ) else ofDigits 10 n.digits

end IntText

/-- A list of integers, separated by commas. -/
def IsIntList (s : Bytes) (vs : List ℤ) : Prop :=
  ∃ ns : List IntText, [chr ','].intercalate (ns.map IntText.text) = s ∧ ns.map IntText.value = vs

/-- No integer starts a text. -/
def NoInt (s : Bytes) : Prop := ∀ (n : IntText) (rest : Bytes), n.text ++ rest ≠ s

/-- The first `max` integers at the start of a text, each with the comma after it if there is
one. -/
inductive StartsWithInts : Bytes → ℕ → List ℤ → Prop
  /-- No further integer is wanted. -/
  | full (s : Bytes) : StartsWithInts s 0 []
  /-- There is no further integer. -/
  | stop {s : Bytes} {max : ℕ} : NoInt s → StartsWithInts s (max + 1) []
  /-- An integer and a comma. -/
  | comma (n : IntText) {rest : Bytes} {max : ℕ} {vs : List ℤ} :
    StartsWithInts rest max vs →
      StartsWithInts (n.text ++ chr ',' :: rest) (max + 1) (n.value :: vs)
  /-- An integer without a comma. -/
  | next (n : IntText) {rest : Bytes} {max : ℕ} {vs : List ℤ} :
    (∀ c ∈ rest.head?, isdigit c = false ∧ c ≠ chr ',') → StartsWithInts rest max vs →
      StartsWithInts (n.text ++ rest) (max + 1) (n.value :: vs)

/-! ## Reading an integer -/

/-- The `long` nearest to an integer. -/
def clampLong (v : ℤ) : ℤ := if v < -2 ^ 63 then -2 ^ 63 else if 2 ^ 63 ≤ v then 2 ^ 63 - 1 else v

/-- The entry of `parse_int_list` for an integer. -/
def threadCount (v : ℤ) : Int32 := if clampLong v < 1 then 1 else Int32.ofInt (clampLong v)

/-- The integer at the start of a text is read. -/
theorem strtol_text (n : IntText) {rest : Bytes} (hrest : ∀ c ∈ rest.head?, isdigit c = false) :
  (strtol (n.text ++ rest)).value = clampLong n.value ∧ (strtol (n.text ++ rest)).rest = rest
  := by
  obtain ⟨d, ds, hds⟩ := List.exists_cons_of_ne_nil n.nonempty
  have hd : isdigit d = true := by
    apply n.digits_ok
    rw [hds]
    apply List.mem_cons_self
  have hsign : d ≠ chr '-' ∧ d ≠ chr '+' := by
    constructor <;> rintro rfl <;> revert hd <;> decide
  have hspaces : (n.text ++ rest).dropWhile isspace = signText n.sign ++ (n.digits ++ rest) := by
    rw [IntText.text, List.append_assoc, List.append_assoc,
      List.dropWhile_append_of_pos n.spaces_ok, hds]
    rcases n.sign with _ | _ | _
    · simp [signText, isspace_of_isdigit hd]
    · rfl
    · rfl
  obtain ⟨htake, hdrop⟩ := Text.span_append n.digits_ok hrest
  have htakeSign : takeSign (signText n.sign ++ (n.digits ++ rest))
      = (decide (n.sign = some true), n.digits ++ rest) := by
    rw [hds]
    apply takeSign_signText _ hsign.1 hsign.2
  rw [strtol, hspaces, htakeSign]
  dsimp only
  rw [htake, hdrop, if_neg n.nonempty, clampLong, IntText.value]
  simp only [decide_eq_true_eq]
  split_ifs <;> exact ⟨rfl, rfl⟩

/-- A text is the text of a sign and what `takeSign` leaves. -/
theorem exists_signText (s : Bytes) :
  ∃ sg, signText sg ++ (takeSign s).2 = s
  := by
  cases s with
  | nil => exact ⟨none, rfl⟩
  | cons c t =>
    rw [takeSign]
    split_ifs with hminus hplus
    · use some true
      rw [hminus]
      rfl
    · use some false
      rw [hplus]
      rfl
    · exact ⟨none, rfl⟩

/-- Where an integer does not start a text, nothing is read. -/
theorem strtol_noInt {s : Bytes} (h : NoInt s) :
  (strtol s).rest = s
  := by
  rw [strtol]
  dsimp only
  split_ifs with hds
  · rfl
  all_goals
    exfalso
    obtain ⟨sg, hsg⟩ := exists_signText (s.dropWhile isspace)
    apply h ⟨s.takeWhile isspace, sg, (takeSign (s.dropWhile isspace)).2.takeWhile isdigit,
      fun c hc => List.mem_takeWhile_imp hc, fun c hc => List.mem_takeWhile_imp hc, hds⟩
      ((takeSign (s.dropWhile isspace)).2.dropWhile isdigit)
    rw [IntText.text, List.append_assoc, List.append_assoc, List.takeWhile_append_dropWhile, hsg,
      List.takeWhile_append_dropWhile]

/-- A text starts with an integer that no digit follows, or with none. -/
theorem exists_text_or_noInt (s : Bytes) :
  NoInt s ∨ ∃ (n : IntText) (rest : Bytes),
    n.text ++ rest = s ∧ ∀ c ∈ rest.head?, isdigit c = false
  := by
  rw [or_iff_not_imp_left, NoInt]
  intro h
  push Not at h
  obtain ⟨n, rest, rfl⟩ := h
  refine ⟨⟨n.spaces, n.sign, n.digits ++ rest.takeWhile isdigit, n.spaces_ok, ?_, ?_⟩,
    rest.dropWhile isdigit, ?_, ?_⟩
  · intro c hc
    rcases List.mem_append.mp hc with hc | hc
    · apply n.digits_ok c hc
    · apply List.mem_takeWhile_imp hc
  · simp [n.nonempty]
  · simp only [IntText.text, List.append_assoc, List.takeWhile_append_dropWhile]
  · intro c hc
    have hne : rest.dropWhile isdigit ≠ [] := by
      rintro hnil
      simp [hnil] at hc
    rw [List.head?_eq_some_head hne, Option.mem_some_iff] at hc
    rw [← hc]
    apply List.head_dropWhile_not

/-! ## Reading a list -/

/-- A text of an integer is not empty. -/
theorem text_append_ne_nil (n : IntText) (rest : Bytes) :
  n.text ++ rest ≠ []
  := by
  simp [IntText.text, n.nonempty]

/-- One step of the loop, at an integer. -/
theorem parseIntList_text (n : IntText) {rest : Bytes} (hrest : ∀ c ∈ rest.head?, isdigit c = false)
    (max : ℕ) :
  parseIntList (n.text ++ rest) (max + 1)
    = threadCount n.value
      :: parseIntList (if rest.head? = some (chr ',') then rest.tail else rest) max
  := by
  obtain ⟨hvalue, hend⟩ := strtol_text n hrest
  have hread : ¬ (n.text ++ rest = [] ∨ rest = n.text ++ rest) := by
    rintro (h | h)
    · apply text_append_ne_nil n rest h
    · apply text_append_ne_nil n []
      rw [List.append_nil]
      apply List.self_eq_append_left.mp h
  rw [parseIntList, hvalue, hend, if_neg hread, threadCount]

/-- The loop stops where no integer starts. -/
theorem parseIntList_noInt {s : Bytes} (h : NoInt s) (max : ℕ) :
  parseIntList s max = []
  := by
  cases max with
  | zero => rfl
  | succ max =>
    rw [parseIntList, if_pos (Or.inr (strtol_noInt h))]

/-- The entries are those of the integers at the start of the text. -/
theorem parseIntList_eq {s : Bytes} {max : ℕ} {vs : List ℤ} (h : StartsWithInts s max vs) :
  parseIntList s max = vs.map threadCount
  := by
  induction h with
  | full s => rfl
  | stop h => apply parseIntList_noInt h
  | comma n h ih =>
    rw [parseIntList_text n (by simp; decide), List.head?_cons, if_pos rfl, List.tail_cons, ih,
      List.map_cons]
  | next n hrest h ih =>
    rw [parseIntList_text n (fun c hc => (hrest c hc).1), if_neg, ih, List.map_cons]
    intro hcomma
    apply (hrest _ hcomma).2 rfl

/-- Every text starts with some integers, perhaps none. -/
theorem exists_startsWithInts (s : Bytes) (max : ℕ) :
  ∃ vs, StartsWithInts s max vs
  := by
  induction max generalizing s with
  | zero => exact ⟨[], .full s⟩
  | succ max ih =>
    rcases exists_text_or_noInt s with h | ⟨n, rest, rfl, hrest⟩
    · exact ⟨[], .stop h⟩
    · by_cases hcomma : rest.head? = some (chr ',')
      · obtain ⟨t, rfl⟩ : ∃ t, rest = chr ',' :: t := by
          cases rest with
          | nil => simp at hcomma
          | cons c t => simp_all
        obtain ⟨vs, hvs⟩ := ih t
        exact ⟨_, .comma n hvs⟩
      · obtain ⟨vs, hvs⟩ := ih rest
        refine ⟨_, .next n ?_ hvs⟩
        intro c hc
        constructor
        · apply hrest c hc
        · rintro rfl
          apply hcomma hc

/-- A text starts with at most the wanted number of integers. -/
theorem StartsWithInts.length_le {s : Bytes} {max : ℕ} {vs : List ℤ} (h : StartsWithInts s max vs) :
  vs.length ≤ max
  := by
  induction h with
  | full s => apply le_refl
  | stop h => apply Nat.zero_le
  | comma n h ih => apply Nat.succ_le_succ ih
  | next n hrest h ih => apply Nat.succ_le_succ ih

/-- No integer starts the empty text. -/
theorem noInt_nil :
  NoInt []
  := by
  intro n rest h
  apply text_append_ne_nil n rest h

/-- A list of integers starts with its integers. -/
theorem startsWithInts_of_isIntList {s : Bytes} {vs : List ℤ} (h : IsIntList s vs) {max : ℕ}
    (hlen : vs.length ≤ max) :
  StartsWithInts s max vs
  := by
  obtain ⟨ns, rfl, rfl⟩ := h
  induction ns generalizing max with
  | nil =>
    cases max with
    | zero => apply StartsWithInts.full
    | succ max => apply StartsWithInts.stop noInt_nil
  | cons n ns ih =>
    cases max with
    | zero => simp at hlen
    | succ max =>
      have hroom : (ns.map IntText.value).length ≤ max := by simpa using hlen
      have htail := ih hroom
      cases ns with
      | nil =>
        have hlast : StartsWithInts (n.text ++ []) (max + 1) [n.value] := .next n (by simp) htail
        simpa using hlast
      | cons m ns =>
        have hcomma := StartsWithInts.comma n htail
        simpa using hcomma

/-! ## Thread counts -/

/-- What is expected of `parse_int_list`: it reads lists of integers, and on any text it gives
at most `max` entries, each at least one. -/
structure ParsesThreads (s : Bytes) (max : ℕ) : Prop where
  /-- A list of at most `max` integers that fit in a `long` gives as many entries. -/
  length_eq : ∀ vs, IsIntList s vs → vs.length ≤ max → (∀ v ∈ vs, -2 ^ 63 ≤ v ∧ v < 2 ^ 63) →
    (parseIntList s max).length = vs.length
  /-- An integer of the list that fits in an `int` gives the greater of it and one. -/
  entry : ∀ vs, IsIntList s vs → vs.length ≤ max → (∀ v ∈ vs, -2 ^ 63 ≤ v ∧ v < 2 ^ 63) →
    ∀ (i : ℕ) (v : ℤ), vs[i]? = some v → -2 ^ 31 ≤ v → v < 2 ^ 31 →
      ((parseIntList s max)[i]?).map Int32.toInt = some (Max.max 1 v)
  length_le : (parseIntList s max).length ≤ max
  positive : ∀ n ∈ parseIntList s max, 1 ≤ n.toInt

/-- An integer gives an entry of at least one: it is below one, or what is left of it in an
`int` is not. -/
def KeepsPositive (v : ℤ) : Prop :=
  clampLong v < 1 ∨ 1 ≤ clampLong v % 2 ^ 32 ∧ clampLong v % 2 ^ 32 < 2 ^ 31

/-- The entry of an integer that fits in an `int`. -/
theorem threadCount_of_int {v : ℤ} (hlo : -2 ^ 31 ≤ v) (hhi : v < 2 ^ 31) :
  (threadCount v).toInt = max 1 v
  := by
  have hclamp : clampLong v = v := by
    rw [clampLong, if_neg (by omega), if_neg (by omega)]
  rw [threadCount, hclamp]
  split_ifs with h
  · rw [max_eq_left h.le]
    rfl
  · rw [Int32.toInt_ofInt_of_le hlo hhi, max_eq_right (not_lt.mp h)]

/-- The entries that are at least one. -/
theorem one_le_threadCount_iff (v : ℤ) :
  1 ≤ (threadCount v).toInt ↔ KeepsPositive v
  := by
  rw [threadCount, KeepsPositive]
  split_ifs with h
  · simp [h]
  · have hsize : Int32.size = 2 ^ 32 := rfl
    rw [Int32.toInt_ofInt, hsize, Int.bmod_def]
    simp only [h, false_or]
    split_ifs <;> omega

/-- `parse_int_list` gives what is expected exactly when each of the first `max` integers of the
text is below one or keeps a positive value in an `int`. -/
theorem parsesThreads_iff (s : Bytes) (max : ℕ) :
  ParsesThreads s max ↔ ∀ vs, StartsWithInts s max vs → ∀ v ∈ vs, KeepsPositive v
  := by
  constructor
  · intro h vs hvs v hv
    rw [← one_le_threadCount_iff]
    apply h.positive
    rw [parseIntList_eq hvs]
    apply List.mem_map_of_mem hv
  · intro h
    obtain ⟨us, hus⟩ := exists_startsWithInts s max
    constructor
    · intro vs hlist hlen _
      rw [parseIntList_eq (startsWithInts_of_isIntList hlist hlen), List.length_map]
    · intro vs hlist hlen _ i v hv hlo hhi
      rw [parseIntList_eq (startsWithInts_of_isIntList hlist hlen), List.getElem?_map, hv]
      simp only [Option.map_some, threadCount_of_int hlo hhi]
    · rw [parseIntList_eq hus, List.length_map]
      apply hus.length_le
    · intro n hn
      rw [parseIntList_eq hus, List.mem_map] at hn
      obtain ⟨v, hv, rfl⟩ := hn
      rw [one_le_threadCount_iff]
      apply h us hus v hv

/-- One more than the greatest `int` gives the least. -/
theorem parsesThreads_wraps :
  ¬ ParsesThreads (ascii "2147483648") 64
  := by
  intro h
  have hpos := h.positive (-2147483648) (by decide)
  revert hpos
  decide

end Keybench
