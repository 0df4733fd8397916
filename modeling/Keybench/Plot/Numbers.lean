import Keybench.Lib.Utf8
import Keybench.Libc.Numbers

/-!
# Numbers in the plot script

The functions `int` and `float` of Python on texts, and the checks that the plot script makes
before it calls them.  What `printf` prints for a number is read as that number (`toInt_fmtInt`,
`toFloat_fmtNat`, `toFloat_fmtFixed`).
-/

namespace Keybench

/-- A Python string. -/
abbrev Str : Type := List Char

/-- What Python knows of the characters: the whitespace, and the values of the decimal digits. -/
structure Unicode where
  /-- `str.isspace`. -/
  isspace : Char → Bool
  /-- `unicodedata.decimal`. -/
  decimal : Char → Option ℕ
  isspace_ascii : ∀ x : UInt8, x < 128 →
    isspace (Char.ofNat x.toNat) = (Keybench.isspace x || (28 ≤ x.toNat && x.toNat ≤ 31))
  decimal_ascii : ∀ x : UInt8, x < 128 →
    decimal (Char.ofNat x.toNat) = if isdigit x then some (digitValue x) else none

section

variable (u : Unicode)

/-- `str.strip`. -/
def strip (text : Str) : Str := Text.trimBy u.isspace text

/-- A text with its decimal digits as those of ASCII, when it has no other characters beyond
ASCII. -/
def asciiDigits (text : Str) : Option Bytes :=
  text.mapM fun c =>
    match u.decimal c with
    | some d => some (digitChar d)
    | none => if c.toNat < 128 then some c.toNat.toUInt8 else none

/-- A text without underscores, when each is between two digits. -/
def dropUnderscores (afterDigit : Bool) : Bytes → Option Bytes
  | [] => some []
  | c :: s =>
    if c = chr '_' then
      if afterDigit && s.head?.any isdigit then dropUnderscores false s else none
    else (dropUnderscores (isdigit c) s).map (c :: ·)

/-- The numeral in a cell: the checks of `to_int` and `to_float`, and what `int` and `float` do
first. -/
def numeral (cell : Option Str) : Option Bytes := do
  let text ← cell
  if strip u text = [] then none
  else
    let s ← asciiDigits u (strip u text)
    dropUnderscores false s

/-- `to_int`.  Python refuses an integer with more than 4300 digits. -/
def toInt (cell : Option Str) : Option ℤ := do
  let s ← numeral u cell
  let (neg, ds) := takeSign s
  if ds ≠ [] ∧ ds.all isdigit ∧ ds.length ≤ 4300 then
    some (if neg then -(ofDigits 10 ds : ℤ) else ofDigits 10 ds)
  else none

/-- `to_float`. -/
def toFloat (cell : Option Str) : Option Binary64 := do
  let s ← numeral u cell
  let (neg, t) := takeSign s
  if t.map toupper = ascii "INFINITY" ∨ t.map toupper = ascii "INF" then some (.inf neg)
  else if t.map toupper = ascii "NAN" then some .nan
  else
    match takeDecimal t with
    | some (q, []) => some (.ofRat (if neg then -q else q))
    | _ => none

/-! ## Printed numbers -/

/-- The characters of printed numbers. -/
def isPrinted (c : UInt8) : Bool := isdigit c || c = chr '-' || c = chr '.'

variable {u}

/-- A printed character is an ASCII character that is not whitespace, and no underscore. -/
theorem isPrinted_ascii {c : UInt8} (h : isPrinted c = true) :
  c < 128 ∧ u.isspace (Char.ofNat c.toNat) = false ∧ c ≠ chr '_'
  := by
  have hall : ∀ i : Fin 256, isPrinted (.ofFin i) = true →
      UInt8.ofFin i < 128
        ∧ (Keybench.isspace (.ofFin i)
            || (28 ≤ (UInt8.ofFin i).toNat && (UInt8.ofFin i).toNat ≤ 31)) = false
        ∧ UInt8.ofFin i ≠ chr '_' := by
    decide +kernel
  obtain ⟨hlt, hspace, hne⟩ := hall c.toFin h
  exact ⟨hlt, (u.isspace_ascii c hlt).trans hspace, hne⟩

/-- The digit of its value. -/
theorem digitChar_digitValue {c : UInt8} (h : isdigit c = true) :
  digitChar (digitValue c) = c
  := by
  have hall : ∀ i : Fin 256, isdigit (.ofFin i) = true →
      digitChar (digitValue (.ofFin i)) = .ofFin i := by
    decide +kernel
  apply hall c.toFin h

/-- Printed characters are kept. -/
theorem asciiDigits_ofAscii {s : Bytes} (h : ∀ c ∈ s, isPrinted c = true) :
  asciiDigits u (Utf8.ofAscii s) = some s
  := by
  induction s with
  | nil => rfl
  | cons c s ih =>
    obtain ⟨hc, hs⟩ := List.forall_mem_cons.mp h
    obtain ⟨hlt, -, -⟩ := isPrinted_ascii (u := u) hc
    have hlt' : c.toNat < 128 := UInt8.lt_iff_toNat_lt.mp hlt
    have hnat := Utf8.toNat_ofNat hlt'
    rw [Utf8.ofAscii, List.map_cons, asciiDigits, Text.mapM_cons_eq_some]
    refine ⟨c, s, ?_, ih hs, rfl⟩
    rw [u.decimal_ascii c hlt]
    by_cases hdigit : isdigit c = true
    · simp [hdigit, digitChar_digitValue hdigit]
    · simp [hdigit, hnat, hlt']

/-- A text without underscores is kept. -/
theorem dropUnderscores_eq {s : Bytes} (h : chr '_' ∉ s) (afterDigit : Bool) :
  dropUnderscores afterDigit s = some s
  := by
  induction s generalizing afterDigit with
  | nil => rfl
  | cons c s ih =>
    obtain ⟨hc, hs⟩ := not_or.mp (List.mem_cons.not.mp h)
    rw [dropUnderscores, if_neg (Ne.symm hc), ih hs]
    rfl

/-- A printed number is its own numeral. -/
theorem numeral_ofAscii {s : Bytes} (hne : s ≠ []) (h : ∀ c ∈ s, isPrinted c = true) :
  numeral u (some (Utf8.ofAscii s)) = some s
  := by
  have hspace : ∀ x ∈ Utf8.ofAscii s, u.isspace x = false := by
    intro x hx
    obtain ⟨c, hc, rfl⟩ := List.mem_map.mp hx
    apply (isPrinted_ascii (h c hc)).2.1
  have hstrip : strip u (Utf8.ofAscii s) = Utf8.ofAscii s := by
    apply Text.trimBy_eq_self hspace
  have hne' : Utf8.ofAscii s ≠ [] := by
    simpa [Utf8.ofAscii] using hne
  have hunder : chr '_' ∉ s := fun hmem => (isPrinted_ascii (u := u) (h _ hmem)).2.2 rfl
  rw [numeral, Option.bind_eq_bind, Option.bind_some, hstrip, if_neg hne', asciiDigits_ofAscii h,
    Option.bind_eq_bind, Option.bind_some, dropUnderscores_eq hunder]

/-- The characters of a printed natural number. -/
theorem isPrinted_fmtNat {n : ℕ} {c : UInt8} (h : c ∈ fmtNat n) :
  isPrinted c = true
  := by
  simp [isPrinted, isdigit_of_mem_fmtNat h]

/-- The characters of a printed integer. -/
theorem isPrinted_fmtInt {n : ℤ} {c : UInt8} (h : c ∈ fmtInt n) :
  isPrinted c = true
  := by
  rw [fmtInt] at h
  split_ifs at h
  · rcases List.mem_cons.mp h with rfl | h
    · decide
    · apply isPrinted_fmtNat h
  · apply isPrinted_fmtNat h

/-- The characters of a number printed with a point. -/
theorem isPrinted_fmtFixed {k : ℕ} {q : ℚ} {c : UInt8} (h : c ∈ fmtFixed k q) :
  isPrinted c = true
  := by
  rw [fmtFixed, List.mem_append, List.mem_append, List.mem_cons] at h
  rcases h with h | h | rfl | h
  · split_ifs at h
    · obtain rfl := List.mem_singleton.mp h
      decide
    · cases h
  · apply isPrinted_fmtNat h
  · decide
  · simp [isPrinted, isdigit_of_mem_zeroPad h]

/-- The sign of digits. -/
theorem takeSign_of_isdigit {s : Bytes} (h : ∀ c ∈ s.head?, isdigit c = true) :
  takeSign s = (false, s)
  := by
  cases s with
  | nil => rfl
  | cons c s =>
    have hdigit : isdigit c = true := h c rfl
    have hminus : c ≠ chr '-' := by
      rintro rfl
      revert hdigit
      decide
    have hplus : c ≠ chr '+' := by
      rintro rfl
      revert hdigit
      decide
    rw [takeSign, if_neg hminus, if_neg hplus]

/-- A printed number begins with a digit. -/
theorem isdigit_head?_fmtNat (n : ℕ) (s : Bytes) :
  ∀ c ∈ (fmtNat n ++ s).head?, isdigit c = true
  := by
  intro c hc
  rw [List.head?_append_of_ne_nil _ (fmtNat_ne_nil n)] at hc
  apply isdigit_of_mem_fmtNat (List.mem_of_head? hc)

/-- `to_int` reads what `%d` prints. -/
theorem toInt_fmtInt {n : ℤ} (h : (fmtNat n.natAbs).length ≤ 4300) :
  toInt u (some (Utf8.ofAscii (fmtInt n))) = some n
  := by
  have hne : fmtInt n ≠ [] := by
    rw [fmtInt]
    split_ifs
    · apply List.cons_ne_nil
    · apply fmtNat_ne_nil
  have hsign : takeSign (fmtInt n) = (decide (n < 0), fmtNat n.natAbs) := by
    rw [fmtInt]
    split_ifs with hneg
    · simp [takeSign, hneg]
    · have hhead := isdigit_head?_fmtNat n.natAbs []
      rw [List.append_nil] at hhead
      rw [takeSign_of_isdigit hhead]
      simp [hneg]
  have hall : (fmtNat n.natAbs).all isdigit = true := by
    rw [List.all_eq_true]
    intro c hc
    apply isdigit_of_mem_fmtNat hc
  rw [toInt, numeral_ofAscii hne (fun c hc => isPrinted_fmtInt hc), Option.bind_eq_bind,
    Option.bind_some, hsign]
  dsimp only
  rw [if_pos ⟨fmtNat_ne_nil _, hall, h⟩, ofDigits_fmtNat]
  congr 1
  split_ifs with hneg
  · rw [decide_eq_true_eq] at hneg
    omega
  · rw [decide_eq_true_eq] at hneg
    omega

/-- `to_float` reads a decimal number with an optional minus sign. -/
theorem toFloat_decimal {s t : Bytes} {q : ℚ} (neg : Bool)
    (hs : s = (if neg then [chr '-'] else []) ++ t) (hprinted : ∀ c ∈ s, isPrinted c = true)
    (hhead : ∃ c ∈ t.head?, isdigit c = true) (hvalue : takeDecimal t = some (q, [])) :
  toFloat u (some (Utf8.ofAscii s)) = some (.ofRat (if neg then -q else q))
  := by
  obtain ⟨c, hc, hdigit⟩ := hhead
  obtain ⟨cs, rfl⟩ : ∃ cs, t = c :: cs := by
    cases t with
    | nil => cases hc
    | cons x t =>
      obtain rfl := Option.some_inj.mp hc
      exact ⟨t, rfl⟩
  have hne : s ≠ [] := by
    rw [hs]
    simp
  have hsign : takeSign s = (neg, c :: cs) := by
    rw [hs]
    cases neg with
    | true => rfl
    | false =>
      rw [if_neg (by decide), List.nil_append]
      apply takeSign_of_isdigit
      rintro x hx
      obtain rfl := Option.some_inj.mp hx
      exact hdigit
  have hword : ∀ w : Bytes, w.head?.any isdigit = false → (c :: cs).map toupper ≠ w := by
    rintro w hw rfl
    rw [List.map_cons, List.head?_cons, Option.any_some, toupper_of_isdigit hdigit, hdigit] at hw
    cases hw
  rw [toFloat, numeral_ofAscii hne hprinted, Option.bind_eq_bind, Option.bind_some, hsign]
  dsimp only
  rw [if_neg (not_or.mpr ⟨hword _ (by decide), hword _ (by decide)⟩), if_neg (hword _ (by decide)),
    hvalue]

/-- `to_float` reads what `%llu` prints. -/
theorem toFloat_fmtNat (n : ℕ) :
  toFloat u (some (Utf8.ofAscii (fmtNat n))) = some (.ofRat n)
  := by
  have hall : ∀ c ∈ fmtNat n, isdigit c = true := fun c hc => isdigit_of_mem_fmtNat hc
  have hhead : ∃ c ∈ (fmtNat n).head?, isdigit c = true := by
    obtain ⟨c, cs, hcs⟩ := List.exists_cons_of_ne_nil (fmtNat_ne_nil n)
    use c
    rw [hcs] at hall ⊢
    exact ⟨rfl, hall c List.mem_cons_self⟩
  have hvalue := takeDecimal_of_isdigit (fmtNat_ne_nil n) hall
  rw [ofDigits_fmtNat] at hvalue
  apply toFloat_decimal false rfl (fun c hc => isPrinted_fmtNat hc) hhead hvalue

/-- `to_float` reads what `%f` prints. -/
theorem toFloat_fmtFixed {k : ℕ} (hk : 0 < k) (q : ℚ) :
  toFloat u (some (Utf8.ofAscii (fmtFixed k q))) = some (.ofRat (fixedValue k q))
  := by
  have hhead : ∃ c ∈ (fmtNat (fixedDigits k q / 10 ^ k)
      ++ chr '.' :: zeroPad k (fmtNat (fixedDigits k q % 10 ^ k))).head?, isdigit c = true := by
    obtain ⟨c, cs, hcs⟩ := List.exists_cons_of_ne_nil (fmtNat_ne_nil (fixedDigits k q / 10 ^ k))
    use c
    rw [hcs]
    refine ⟨rfl, ?_⟩
    apply isdigit_of_mem_fmtNat (n := fixedDigits k q / 10 ^ k)
    rw [hcs]
    apply List.mem_cons_self
  have hsign : fmtFixed k q = (if decide (q < 0) then [chr '-'] else [])
      ++ (fmtNat (fixedDigits k q / 10 ^ k)
        ++ chr '.' :: zeroPad k (fmtNat (fixedDigits k q % 10 ^ k))) := by
    simp [fmtFixed]
  rw [toFloat_decimal (decide (q < 0)) hsign (fun c hc => isPrinted_fmtFixed hc) hhead
    (takeDecimal_fixed hk _), fixedValue]
  simp

end

end Keybench
