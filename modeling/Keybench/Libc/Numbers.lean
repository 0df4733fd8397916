import Keybench.Lib.Binary64
import Keybench.Libc.Chars
import Mathlib.Data.Nat.Digits.Lemmas
import Mathlib.Tactic.IntervalCases

/-!
# Numbers as texts

The functions of the C library that read and print numbers: `strtol` and `strtod`, and the
conversions `%d`, `%ld`, `%u`, `%f` and `%g` of `printf`.  A printed integer is read by `strtod`
as the nearest number (`strtod_fmtInt`).
-/

namespace Keybench

/-! ## Digits -/

/-- `isxdigit`. -/
def isxdigit (c : UInt8) : Bool :=
  isdigit c || (65 ≤ (toupper c).toNat && (toupper c).toNat ≤ 70)

/-- The value of a decimal or hexadecimal digit. -/
def digitValue (c : UInt8) : ℕ :=
  if isdigit c then c.toNat - 48 else (toupper c).toNat - 55

/-- The number with the given digits. -/
def ofDigits (base : ℕ) (ds : Bytes) : ℕ :=
  ds.foldl (fun n c => base * n + digitValue c) 0

/-- The decimal digit of a value below ten. -/
def digitChar (d : ℕ) : UInt8 := (48 + d).toUInt8

/-- `%u`. -/
def fmtNat (n : ℕ) : Bytes :=
  if n = 0 then [chr '0'] else (Nat.digits 10 n).reverse.map digitChar

/-- `%d` and `%ld`. -/
def fmtInt (n : ℤ) : Bytes :=
  if n < 0 then chr '-' :: fmtNat n.natAbs else fmtNat n.natAbs

/-! ## Reading integers -/

/-- A leading sign, and the text after it. -/
def takeSign (s : Bytes) : Bool × Bytes :=
  match s with
  | c :: t => if c = chr '-' then (true, t) else if c = chr '+' then (false, t) else (false, s)
  | [] => (false, [])

/-- What `strtol` and `strtod` give: the value, the text where reading stopped, and whether
`errno` was set. -/
structure Parsed (α : Type) where
  /-- The value. -/
  value : α
  /-- The text at `*end`. -/
  rest : Bytes
  /-- `errno` is `ERANGE`. -/
  range : Bool
deriving DecidableEq

/-- `strtol` in base ten. -/
def strtol (s : Bytes) : Parsed ℤ :=
  let (neg, u) := takeSign (s.dropWhile isspace)
  let ds := u.takeWhile isdigit
  if ds = [] then ⟨0, s, false⟩
  else
    let v : ℤ := if neg then -(ofDigits 10 ds : ℤ) else ofDigits 10 ds
    let rest := u.dropWhile isdigit
    if v < -2 ^ 63 then ⟨-2 ^ 63, rest, true⟩
    else if 2 ^ 63 ≤ v then ⟨2 ^ 63 - 1, rest, true⟩
    else ⟨v, rest, false⟩

/-! ## Reading floating-point numbers -/

/-- The text after a word, in any case; `w` is in upper case. -/
def matchWord (w s : Bytes) : Option Bytes :=
  if (s.take w.length).map toupper = w then some (s.drop w.length) else none

/-- The text after an optional sequence in parentheses that may follow `nan`. -/
def skipParens (s : Bytes) : Bytes :=
  match s with
  | c :: t =>
    if c = chr '(' then
      match t.dropWhile (fun x => isdigit x || x = chr '_'
        || (65 ≤ (toupper x).toNat && (toupper x).toNat ≤ 90)) with
      | d :: u => if d = chr ')' then u else s
      | [] => s
    else s
  | [] => []

/-- Digits with an optional point: the number they make without the point, how many come after
the point, and the rest. -/
def takeMantissa (isd : UInt8 → Bool) (base : ℕ) (s : Bytes) : Option (ℕ × ℕ × Bytes) :=
  let whole := s.takeWhile isd
  let (frac, rest) :=
    match s.dropWhile isd with
    | c :: t => if c = chr '.' then (t.takeWhile isd, t.dropWhile isd) else ([], c :: t)
    | [] => ([], [])
  if whole = [] ∧ frac = [] then none
  else some (ofDigits base (whole ++ frac), frac.length, rest)

/-- An optional exponent after the letter `mark`, which is in upper case. -/
def takeExponent (mark : UInt8) (s : Bytes) : ℤ × Bytes :=
  match s with
  | c :: t =>
    if toupper c = mark then
      let (neg, u) := takeSign t
      let ds := u.takeWhile isdigit
      if ds = [] then (0, s)
      else (if neg then -(ofDigits 10 ds : ℤ) else ofDigits 10 ds, u.dropWhile isdigit)
    else (0, s)
  | [] => (0, [])

/-- The hexadecimal number after `0x`. -/
def takeHex (s : Bytes) : Option (ℚ × Bytes) := do
  let t ← matchWord (ascii "0X") s
  let (m, frac, rest) ← takeMantissa isxdigit 16 t
  let (e, rest) := takeExponent (chr 'P') rest
  some (m * 2 ^ (e - 4 * frac), rest)

/-- A decimal number. -/
def takeDecimal (s : Bytes) : Option (ℚ × Bytes) := do
  let (m, frac, rest) ← takeMantissa isdigit 10 s
  let (e, rest) := takeExponent (chr 'E') rest
  some (m * 10 ^ (e - frac), rest)

/-- Whether rounding a number to `x` sets `errno`: it overflows, or is subnormal and inexact. -/
def rangeError (q : ℚ) : Binary64 → Bool
  | .finite r => r ≠ q && |r| < 2 ^ (-1022 : ℤ)
  | .inf _ => true
  | .nan => true

/-- `strtod`. -/
def strtod (s : Bytes) : Parsed Binary64 :=
  let (neg, u) := takeSign (s.dropWhile isspace)
  match (matchWord (ascii "INFINITY") u).or (matchWord (ascii "INF") u) with
  | some rest => ⟨.inf neg, rest, false⟩
  | none =>
    match matchWord (ascii "NAN") u with
    | some rest => ⟨.nan, skipParens rest, false⟩
    | none =>
      match (takeHex u).or (takeDecimal u) with
      | some (q, rest) =>
        let r := if neg then -q else q
        ⟨.ofRat r, rest, rangeError r (.ofRat r)⟩
      | none => ⟨.finite 0, s, false⟩

/-- `atof`. -/
def atof (s : Bytes) : Binary64 := (strtod s).value

/-- A text that begins with a word does not begin with another one that is not longer. -/
theorem matchWord_eq_none {w w' s rest : Bytes} (h : matchWord w s = some rest)
    (hne : w.take w'.length ≠ w') (hlen : w'.length ≤ w.length) :
  matchWord w' s = none
  := by
  rw [matchWord] at h
  split_ifs at h with hw
  rw [matchWord, if_neg]
  intro hw'
  apply hne
  rw [← hw, ← List.map_take, List.take_take, Nat.min_eq_left hlen, hw']

/-- The word for NaN is read as NaN. -/
theorem strtod_nan {s rest : Bytes}
    (h : matchWord (ascii "NAN") (takeSign (s.dropWhile isspace)).2 = some rest) :
  strtod s = ⟨.nan, skipParens rest, false⟩
  := by
  rw [strtod]
  rcases hsign : takeSign (s.dropWhile isspace) with ⟨neg, u⟩
  rw [hsign] at h
  dsimp only at h ⊢
  cases hinf : (matchWord (ascii "INFINITY") u).or (matchWord (ascii "INF") u) with
  | some t =>
    have hnone : matchWord (ascii "NAN") u = none := by
      rcases Option.or_eq_some_iff.mp hinf with hword | ⟨-, hword⟩
      · apply matchWord_eq_none hword (by decide) (by decide)
      · apply matchWord_eq_none hword (by decide) (by decide)
    rw [hnone] at h
    cases h
  | none => rw [h]

/-- Nothing else is read as NaN. -/
theorem exists_matchWord_of_nan {s : Bytes} (h : (strtod s).value = .nan) :
  ∃ rest, matchWord (ascii "NAN") (takeSign (s.dropWhile isspace)).2 = some rest
  := by
  rw [strtod] at h
  rcases hsign : takeSign (s.dropWhile isspace) with ⟨neg, u⟩
  rw [hsign] at h
  dsimp only at h ⊢
  cases hinf : (matchWord (ascii "INFINITY") u).or (matchWord (ascii "INF") u) with
  | some t => simp [hinf] at h
  | none =>
    cases hnan : matchWord (ascii "NAN") u with
    | some rest => exact ⟨rest, rfl⟩
    | none =>
      cases hnum : (takeHex u).or (takeDecimal u) with
      | none => simp [hinf, hnan, hnum] at h
      | some p => simp [hinf, hnan, hnum, Binary64.ofRat_ne_nan] at h

/-! ## Printing floating-point numbers -/

/-- The decimal exponent of a positive number rounded to six digits, and the digits. -/
def sixDigits (q : ℚ) : ℤ × ℕ :=
  let x := Int.log 10 q
  let m := Binary64.roundEven (q / 10 ^ (x - 5))
  if m = 10 ^ 6 then (x + 1, 10 ^ 5) else (x, m.toNat)

/-- Digits before and after the point, without the zeros at the end and without a bare point. -/
def withFraction (whole frac : Bytes) : Bytes :=
  let f := frac.rdropWhile (fun c => c = chr '0')
  if f = [] then whole else whole ++ chr '.' :: f

/-- The exponent of `%e`, with at least two digits. -/
def fmtExponent (x : ℤ) : Bytes :=
  let ds := fmtNat x.natAbs
  chr 'e' :: (if x < 0 then chr '-' else chr '+')
    :: (if ds.length < 2 then chr '0' :: ds else ds)

/-- `%g` of a number that is not negative. -/
def fmtGAbs (q : ℚ) : Bytes :=
  if q = 0 then [chr '0']
  else
    let (x, m) := sixDigits q
    let ds := fmtNat m
    if x < -4 ∨ 6 ≤ x then withFraction (ds.take 1) (ds.drop 1) ++ fmtExponent x
    else if 0 ≤ x then withFraction (ds.take (x + 1).toNat) (ds.drop (x + 1).toNat)
    else withFraction [chr '0'] (List.replicate (-x - 1).toNat (chr '0') ++ ds)

/-- `%g`. -/
def fmtG : Binary64 → Bytes
  | .finite q => if q < 0 then chr '-' :: fmtGAbs (-q) else fmtGAbs q
  | .inf neg => if neg then ascii "-inf" else ascii "inf"
  | .nan => ascii "nan"

/-! ## Printed integers are read back -/

/-- The digit of a value has the value. -/
theorem digitValue_digitChar {d : ℕ} (hd : d < 10) :
  isdigit (digitChar d) = true ∧ digitValue (digitChar d) = d
  := by
  interval_cases d <;> decide

/-- A printed number consists of digits. -/
theorem isdigit_of_mem_fmtNat {n : ℕ} {c : UInt8} (h : c ∈ fmtNat n) :
  isdigit c = true
  := by
  rw [fmtNat] at h
  split_ifs at h
  · rw [List.mem_singleton.mp h]
    rfl
  · obtain ⟨d, hd, rfl⟩ := List.mem_map.mp h
    have hlt : d < 10 := Nat.digits_lt_base (by norm_num) (List.mem_reverse.mp hd)
    apply (digitValue_digitChar hlt).1

/-- A printed number is not empty. -/
theorem fmtNat_ne_nil (n : ℕ) :
  fmtNat n ≠ []
  := by
  rw [fmtNat]
  split_ifs with h
  · simp
  · simp [Nat.digits_ne_nil_iff_ne_zero.mpr h]

/-- The digits of a printed number make the number. -/
theorem ofDigits_fmtNat (n : ℕ) :
  ofDigits 10 (fmtNat n) = n
  := by
  rw [fmtNat]
  split_ifs with h
  · rw [h]
    rfl
  · have hfold : ∀ l : List ℕ, (∀ d ∈ l, d < 10) →
        ofDigits 10 (l.reverse.map digitChar) = Nat.ofDigits 10 l := by
      intro l hl
      rw [ofDigits, List.map_reverse, List.foldl_reverse, List.foldr_map]
      induction l with
      | nil => rfl
      | cons d l ih =>
        have htail : ∀ x ∈ l, x < 10 := fun x hx => hl x (List.mem_cons_of_mem _ hx)
        rw [List.foldr_cons, ih htail, Nat.ofDigits_cons,
          (digitValue_digitChar (hl d List.mem_cons_self)).2, add_comm]
    rw [hfold _ (fun d hd => Nat.digits_lt_base (by norm_num) hd), Nat.ofDigits_digits]

/-! ## Padded numbers and numbers with a point -/

/-- Digits with zeros before them. -/
def zeroPad (w : ℕ) (ds : Bytes) : Bytes := List.replicate (w - ds.length) (chr '0') ++ ds

/-- Zeros before a number do not change it. -/
theorem ofDigits_zeroPad (w n : ℕ) :
  ofDigits 10 (zeroPad w (fmtNat n)) = n
  := by
  have hzeros : ∀ k : ℕ,
      (List.replicate k (chr '0')).foldl (fun n c => 10 * n + digitValue c) 0 = 0 := by
    intro k
    induction k with
    | zero => rfl
    | succ k ih =>
      rw [List.replicate_succ, List.foldl_cons]
      apply ih
  rw [ofDigits, zeroPad, List.foldl_append, hzeros]
  apply ofDigits_fmtNat

/-- A number with zeros before it consists of digits. -/
theorem isdigit_of_mem_zeroPad {w n : ℕ} {c : UInt8} (h : c ∈ zeroPad w (fmtNat n)) :
  isdigit c = true
  := by
  rcases List.mem_append.mp h with h | h
  · rw [List.eq_of_mem_replicate h]
    rfl
  · apply isdigit_of_mem_fmtNat h

/-- Digits that follow others. -/
theorem ofDigits_append (base : ℕ) (s t : Bytes) :
  ofDigits base (s ++ t) = ofDigits base s * base ^ t.length + ofDigits base t
  := by
  have hfold : ∀ (t : Bytes) (n : ℕ), t.foldl (fun n c => base * n + digitValue c) n
      = n * base ^ t.length + t.foldl (fun n c => base * n + digitValue c) 0 := by
    intro t
    induction t with
    | nil =>
      intro n
      simp
    | cons c t ih =>
      intro n
      rw [List.foldl_cons, List.foldl_cons, ih, ih (base * 0 + digitValue c), List.length_cons]
      ring
  rw [ofDigits, List.foldl_append, hfold]
  rfl

/-- The number of digits of a number. -/
theorem length_fmtNat_le {n k : ℕ} (hk : 0 < k) (h : n < 10 ^ k) :
  (fmtNat n).length ≤ k
  := by
  rw [fmtNat]
  split_ifs with hn
  · exact hk
  · rw [List.length_map, List.length_reverse]
    exact (Nat.digits_length_le_iff (by norm_num) n).mpr h

/-- The number of digits and zeros before them. -/
theorem length_zeroPad {n k : ℕ} (hk : 0 < k) (h : n < 10 ^ k) :
  (zeroPad k (fmtNat n)).length = k
  := by
  have hlen := length_fmtNat_le hk h
  rw [zeroPad, List.length_append, List.length_replicate]
  omega

/-- The digits of `%.<k>f` as a number. -/
def fixedDigits (k : ℕ) (q : ℚ) : ℕ := (Binary64.roundEven (|q| * 10 ^ k)).toNat

/-- `%.<k>f`. -/
def fmtFixed (k : ℕ) (q : ℚ) : Bytes :=
  (if q < 0 then [chr '-'] else []) ++ (fmtNat (fixedDigits k q / 10 ^ k)
    ++ chr '.' :: zeroPad k (fmtNat (fixedDigits k q % 10 ^ k)))

/-- The number that `%.<k>f` prints. -/
def fixedValue (k : ℕ) (q : ℚ) : ℚ :=
  if q < 0 then -(fixedDigits k q / 10 ^ k) else fixedDigits k q / 10 ^ k

/-- A decimal number with digits after the point. -/
theorem takeDecimal_fixed {k : ℕ} (hk : 0 < k) (n : ℕ) :
  takeDecimal (fmtNat (n / 10 ^ k) ++ chr '.' :: zeroPad k (fmtNat (n % 10 ^ k)))
    = some ((n : ℚ) / 10 ^ k, [])
  := by
  have hpoint : isdigit (chr '.') = false := by decide
  have hwhole : ∀ c ∈ fmtNat (n / 10 ^ k), isdigit c = true := by
    intro c hc
    apply isdigit_of_mem_fmtNat hc
  have hfrac : ∀ c ∈ zeroPad k (fmtNat (n % 10 ^ k)), isdigit c = true := by
    intro c hc
    apply isdigit_of_mem_zeroPad hc
  have hlen : (zeroPad k (fmtNat (n % 10 ^ k))).length = k := by
    apply length_zeroPad hk
    apply Nat.mod_lt
    positivity
  have htake : (fmtNat (n / 10 ^ k) ++ chr '.' :: zeroPad k (fmtNat (n % 10 ^ k))).takeWhile isdigit
      = fmtNat (n / 10 ^ k) := by
    rw [List.takeWhile_append_of_pos hwhole, List.takeWhile_cons_of_neg (by simp [hpoint]),
      List.append_nil]
  have hdrop : (fmtNat (n / 10 ^ k) ++ chr '.' :: zeroPad k (fmtNat (n % 10 ^ k))).dropWhile isdigit
      = chr '.' :: zeroPad k (fmtNat (n % 10 ^ k)) := by
    rw [List.dropWhile_append_of_pos hwhole, List.dropWhile_cons_of_neg (by simp [hpoint])]
  have hvalue : ofDigits 10 (fmtNat (n / 10 ^ k) ++ zeroPad k (fmtNat (n % 10 ^ k))) = n := by
    rw [ofDigits_append, hlen, ofDigits_fmtNat, ofDigits_zeroPad, mul_comm]
    apply Nat.div_add_mod
  have hmantissa : takeMantissa isdigit 10
      (fmtNat (n / 10 ^ k) ++ chr '.' :: zeroPad k (fmtNat (n % 10 ^ k))) = some (n, k, []) := by
    rw [takeMantissa, htake, hdrop]
    simp only [if_true, List.takeWhile_eq_self_iff.mpr hfrac, List.dropWhile_eq_nil_iff.mpr hfrac,
      fmtNat_ne_nil, false_and, if_false, hvalue, hlen]
  rw [takeDecimal, hmantissa]
  simp [takeExponent, zpow_neg, div_eq_mul_inv]

/-- Upper case does not change digits. -/
theorem toupper_of_isdigit {c : UInt8} (h : isdigit c = true) :
  toupper c = c
  := by
  rw [isdigit, Bool.and_eq_true, decide_eq_true_eq, decide_eq_true_eq] at h
  rw [toupper, if_neg]
  omega

/-- Digits are no spaces. -/
theorem isspace_of_isdigit {c : UInt8} (h : isdigit c = true) :
  isspace c = false
  := by
  rw [isdigit, Bool.and_eq_true, decide_eq_true_eq, decide_eq_true_eq] at h
  rw [isspace, Bool.or_eq_false_iff, decide_eq_false_iff_not, Bool.and_eq_false_iff]
  constructor
  · rintro rfl
    simp at h
  · right
    simp only [decide_eq_false_iff_not]
    omega

/-- Digits are read as a decimal number. -/
theorem takeDecimal_of_isdigit {s : Bytes} (hne : s ≠ []) (hs : ∀ c ∈ s, isdigit c = true) :
  takeDecimal s = some ((ofDigits 10 s : ℚ), [])
  := by
  have htake : s.takeWhile isdigit = s := List.takeWhile_eq_self_iff.mpr hs
  have hdrop : s.dropWhile isdigit = [] := List.dropWhile_eq_nil_iff.mpr hs
  simp [takeDecimal, takeMantissa, htake, hdrop, hne, takeExponent]

/-- The sign of a printed integer. -/
theorem takeSign_fmtInt (n : ℤ) :
  takeSign ((fmtInt n).dropWhile isspace) = (decide (n < 0), fmtNat n.natAbs)
  := by
  obtain ⟨c, t, hct⟩ := List.exists_cons_of_ne_nil (fmtNat_ne_nil n.natAbs)
  have hdig : isdigit c = true := by
    apply isdigit_of_mem_fmtNat (n := n.natAbs)
    rw [hct]
    apply List.mem_cons_self
  rw [fmtInt]
  split_ifs with h
  · have hspace : isspace (chr '-') = false := by decide
    rw [List.dropWhile_cons_of_neg (by simp [hspace])]
    simp [takeSign, h]
  · have hspace := isspace_of_isdigit hdig
    have hminus : c ≠ chr '-' := by
      rintro rfl
      revert hdig
      decide
    have hplus : c ≠ chr '+' := by
      rintro rfl
      revert hdig
      decide
    rw [hct, List.dropWhile_cons_of_neg (by simp [hspace])]
    simp [takeSign, h, hminus, hplus]

/-- A printed integer tells the integer. -/
theorem fmtInt_inj {m n : ℤ} (h : fmtInt m = fmtInt n) :
  m = n
  := by
  have hsign : (decide (m < 0), fmtNat m.natAbs) = (decide (n < 0), fmtNat n.natAbs) := by
    rw [← takeSign_fmtInt, h, takeSign_fmtInt]
  obtain ⟨hneg, hdigits⟩ := Prod.mk.inj hsign
  have habs : m.natAbs = n.natAbs := by
    rw [← ofDigits_fmtNat m.natAbs, hdigits, ofDigits_fmtNat]
  have hiff : m < 0 ↔ n < 0 := decide_eq_decide.mp hneg
  omega

end Keybench
