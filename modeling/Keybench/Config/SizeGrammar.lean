import Keybench.Config.Size

/-!
# The grammar of sizes

A size is a decimal number, spaces, and at most one of the suffixes K, M, G and T in either
case.  `cfg_parse_size` reads every size (`cfgParseSize_size`), but it also takes other texts
for sizes: a text without a number, a number of another kind, and any text after a suffix.  It
gives the default for exactly the texts that are no sizes when it does none of this
(`parsesSizes_iff`).
-/

namespace Keybench

/-! ## Decimal numbers -/

/-- The text of a sign, `some true` for a minus. -/
def signText : Option Bool → Bytes
  | none => []
  | some true => [chr '-']
  | some false => [chr '+']

/-- A decimal number as it is written. -/
structure Decimal where
  /-- The sign, if there is one. -/
  sign : Option Bool
  /-- The digits before the point. -/
  whole : Bytes
  /-- The digits after the point, if there is a point. -/
  frac : Option Bytes
  /-- The letter, sign and digits of the exponent, if there is one. -/
  exponent : Option (UInt8 × Option Bool × Bytes)
  whole_digits : ∀ c ∈ whole, isdigit c = true
  frac_digits : ∀ ds ∈ frac, ∀ c ∈ ds, isdigit c = true
  nonempty : whole ≠ [] ∨ frac.getD [] ≠ []
  exponent_mark : ∀ e ∈ exponent, toupper e.1 = chr 'E'
  exponent_digits : ∀ e ∈ exponent, (∀ c ∈ e.2.2, isdigit c = true) ∧ e.2.2 ≠ []

namespace Decimal

/-- The text of the point and the digits after it. -/
def fracText (n : Decimal) : Bytes := (n.frac.map (fun ds => chr '.' :: ds)).getD []

/-- The text of the exponent. -/
def exponentText (n : Decimal) : Bytes :=
  (n.exponent.map (fun e => e.1 :: (signText e.2.1 ++ e.2.2))).getD []

/-- The text after the sign. -/
def unsignedText (n : Decimal) : Bytes := n.whole ++ (n.fracText ++ n.exponentText)

/-- The text. -/
def text (n : Decimal) : Bytes := signText n.sign ++ n.unsignedText

/-- The value of the exponent. -/
def exponentValue (n : Decimal) : ℤ :=
  (n.exponent.map (fun e =>
    if e.2.1 = some true then -(ofDigits 10 e.2.2 : ℤ) else ofDigits 10 e.2.2)).getD 0

/-- The value without the sign. -/
def unsignedValue (n : Decimal) : ℚ :=
  ofDigits 10 (n.whole ++ n.frac.getD []) * 10 ^ (n.exponentValue - (n.frac.getD []).length)

/-- The value. -/
def value (n : Decimal) : ℚ := if n.sign = some true then -n.unsignedValue else n.unsignedValue

end Decimal

/-! ## Sizes -/

/-- The suffixes. -/
inductive SizeUnit
  | k | m | g | t
deriving DecidableEq

/-- The letter of a suffix, in upper case. -/
def SizeUnit.letter : SizeUnit → UInt8
  | .k => chr 'K'
  | .m => chr 'M'
  | .g => chr 'G'
  | .t => chr 'T'

/-- The power of 1024 of a suffix. -/
def SizeUnit.power : SizeUnit → ℕ
  | .k => 1
  | .m => 2
  | .g => 3
  | .t => 4

/-- A size as it is written. -/
structure Size where
  /-- The number. -/
  number : Decimal
  /-- The spaces after the number. -/
  spaces : Bytes
  /-- The suffix with its letter, if there is one. -/
  suffix : Option (SizeUnit × UInt8)
  spaces_ok : ∀ c ∈ spaces, isspace c = true
  suffix_ok : ∀ u ∈ suffix, toupper u.2 = u.1.letter

/-- The text after the number. -/
def Size.tail (z : Size) : Bytes := z.spaces ++ (z.suffix.map Prod.snd).toList

/-- The text of a size. -/
def Size.text (z : Size) : Bytes := z.number.text ++ z.tail

/-- The power of 1024 of a size. -/
def Size.power (z : Size) : ℕ := (z.suffix.map (fun u => u.1.power)).getD 0

/-- The value of a size. -/
def Size.value (z : Size) : ℚ := z.number.value * 1024 ^ z.power

/-- A rational truncated toward zero. -/
def truncate (q : ℚ) : ℤ := q.num.tdiv q.den

/-- A text is a size whose value, truncated toward zero, is the `long long` integer `v`. -/
def IsSize (s : Bytes) (v : ℤ) : Prop :=
  ∃ z : Size, z.text = s ∧ truncate z.value = v ∧ -2 ^ 63 ≤ v ∧ v < 2 ^ 63

/-! ## Reading a decimal number -/

/-- What may follow a number: nothing, a space, or the letter of a suffix. -/
def Follows (rest : Bytes) : Prop :=
  ∀ c ∈ rest.head?, isspace c = true ∨ ∃ u : SizeUnit, toupper c = u.letter

/-- The text after the number of a size may follow it. -/
theorem Size.follows (z : Size) :
  Follows z.tail
  := by
  intro c hc
  rw [Size.tail] at hc
  cases hs : z.spaces with
  | cons x xs =>
    left
    rw [hs, List.cons_append, List.head?_cons, Option.mem_some_iff] at hc
    apply z.spaces_ok
    rw [hs, ← hc]
    apply List.mem_cons_self
  | nil =>
    right
    cases hu : z.suffix with
    | none => simp [hs, hu] at hc
    | some u =>
      rw [hs, hu, List.nil_append, Option.map_some, Option.toList_some, List.head?_cons,
        Option.mem_some_iff] at hc
      use u.1
      rw [← hc]
      apply z.suffix_ok
      exact hu

/-- Spaces do not change in upper case. -/
theorem toupper_of_isspace {c : UInt8} (h : isspace c = true) :
  toupper c = c
  := by
  rw [isspace, Bool.or_eq_true, Bool.and_eq_true, decide_eq_true_eq, decide_eq_true_eq,
    decide_eq_true_eq] at h
  rw [toupper, if_neg]
  rcases h with rfl | h
  · decide
  · omega

/-- What follows a number does not go on with it. -/
theorem Follows.head {rest : Bytes} (h : Follows rest) {c : UInt8} (hc : c ∈ rest.head?) :
  isdigit c = false ∧ c ≠ chr '.' ∧ toupper c ≠ chr 'E' ∧ toupper c ≠ chr 'X'
  := by
  rcases h c hc with hs | ⟨u, hu⟩
  · have hup := toupper_of_isspace hs
    have hdig : isdigit c = false := by
      by_contra hd
      rw [Bool.not_eq_false] at hd
      rw [isspace_of_isdigit hd] at hs
      cases hs
    and_intros
    · apply hdig
    · rintro rfl
      revert hs
      decide
    · rw [hup]
      rintro rfl
      revert hs
      decide
    · rw [hup]
      rintro rfl
      revert hs
      decide
  · have hletter : ∀ v : SizeUnit, isdigit v.letter = false ∧ v.letter ≠ toupper (chr '.') ∧
        v.letter ≠ chr 'E' ∧ v.letter ≠ chr 'X' := by
      intro v
      cases v <;> decide
    obtain ⟨hdig, hpoint, hE, hX⟩ := hletter u
    and_intros
    · by_contra hd
      rw [Bool.not_eq_false] at hd
      rw [← hu, toupper_of_isdigit hd, hd] at hdig
      cases hdig
    · rintro rfl
      apply hpoint hu.symm
    · rw [hu]
      apply hE
    · rw [hu]
      apply hX

/-- A word is matched character by character. -/
theorem matchWord_cons_cons (w c : UInt8) (ws s : Bytes) :
  matchWord (w :: ws) (c :: s) = if toupper c = w then matchWord ws s else none
  := by
  rw [matchWord, matchWord, List.length_cons, List.take_succ_cons, List.map_cons, List.drop_succ_cons]
  simp only [List.cons.injEq]
  split_ifs <;> simp_all

/-- The first character of a word that is matched. -/
theorem matchWord_cons {w : UInt8} {ws s : Bytes} (h : ∀ c ∈ s.head?, toupper c ≠ w) :
  matchWord (w :: ws) s = none
  := by
  cases s with
  | nil => simp [matchWord]
  | cons c s =>
    rw [matchWord_cons_cons, if_neg]
    apply h c rfl

/-- The sign before a text that does not start with one. -/
theorem takeSign_signText (sg : Option Bool) {c : UInt8} (hminus : c ≠ chr '-')
    (hplus : c ≠ chr '+') (s : Bytes) :
  takeSign (signText sg ++ c :: s) = (decide (sg = some true), c :: s)
  := by
  have hne : chr '+' ≠ chr '-' := by decide
  rcases sg with _ | _ | _
  · simp [signText, takeSign, hminus, hplus]
  · simp [signText, takeSign, hne]
  · simp [signText, takeSign]

namespace Decimal

variable (n : Decimal)

/-- The characters of the exponent follow no digits. -/
theorem head_exponentText {rest : Bytes} (hrest : Follows rest) {c : UInt8}
    (hc : c ∈ (n.exponentText ++ rest).head?) :
  isdigit c = false ∧ c ≠ chr '.' ∧ toupper c ≠ chr 'X'
  := by
  rw [exponentText] at hc
  cases he : n.exponent with
  | none =>
    rw [he] at hc
    obtain ⟨hdig, hpoint, -, hX⟩ := hrest.head hc
    exact ⟨hdig, hpoint, hX⟩
  | some e =>
    rw [he, Option.map_some, Option.getD_some, List.cons_append, List.head?_cons,
      Option.mem_some_iff] at hc
    have hmark := n.exponent_mark e he
    rw [hc] at hmark
    have hne : chr 'E' ≠ chr 'X' ∧ toupper (chr '.') ≠ chr 'E' ∧ isdigit (chr 'E') = false := by
      decide
    and_intros
    · by_contra hd
      rw [Bool.not_eq_false] at hd
      rw [toupper_of_isdigit hd] at hmark
      rw [hmark, hne.2.2] at hd
      cases hd
    · rintro rfl
      apply hne.2.1 hmark
    · rw [hmark]
      apply hne.1

/-- The text after the digits before the point starts with none. -/
theorem head_fracText {rest : Bytes} (hrest : Follows rest) {c : UInt8}
    (hc : c ∈ (n.fracText ++ (n.exponentText ++ rest)).head?) :
  isdigit c = false ∧ toupper c ≠ chr 'X'
  := by
  rw [fracText] at hc
  cases hf : n.frac with
  | none =>
    rw [hf] at hc
    obtain ⟨hdig, -, hX⟩ := n.head_exponentText hrest hc
    exact ⟨hdig, hX⟩
  | some ds =>
    rw [hf, Option.map_some, Option.getD_some, List.cons_append, List.head?_cons,
      Option.mem_some_iff] at hc
    rw [← hc]
    decide

/-- A number without its sign starts with a digit or the point. -/
theorem exists_unsignedText (rest : Bytes) :
  ∃ c t, n.unsignedText ++ rest = c :: t ∧ (isdigit c = true ∨ c = chr '.')
  := by
  rw [unsignedText]
  cases hw : n.whole with
  | cons c w =>
    refine ⟨c, _, rfl, Or.inl ?_⟩
    apply n.whole_digits
    rw [hw]
    apply List.mem_cons_self
  | nil =>
    have hne := n.nonempty
    rw [hw] at hne
    cases hf : n.frac with
    | none => simp [hf] at hne
    | some ds =>
      rw [fracText, hf]
      exact ⟨chr '.', _, rfl, Or.inr rfl⟩

/-- The exponent is read. -/
theorem takeExponent_exponentText {rest : Bytes} (hrest : Follows rest) :
  takeExponent (chr 'E') (n.exponentText ++ rest) = (n.exponentValue, rest)
  := by
  rw [exponentText, exponentValue]
  cases he : n.exponent with
  | none =>
    cases rest with
    | nil => rfl
    | cons c t =>
      have hE := (hrest.head (c := c) rfl).2.2.1
      simp [takeExponent, hE]
  | some e =>
    obtain ⟨mark, sg, ds⟩ := e
    obtain ⟨hdigits, hne⟩ := n.exponent_digits _ he
    dsimp only at hdigits hne
    obtain ⟨d, t, rfl⟩ := List.exists_cons_of_ne_nil hne
    have hd : isdigit d = true := hdigits d List.mem_cons_self
    have hminus : d ≠ chr '-' := by
      rintro rfl
      revert hd
      decide
    have hplus : d ≠ chr '+' := by
      rintro rfl
      revert hd
      decide
    obtain ⟨htake, hdrop⟩ :=
      Text.span_append hdigits (fun x hx => (Follows.head hrest hx).1)
    rw [List.cons_append] at htake hdrop
    rw [Option.map_some, Option.getD_some, Option.map_some, Option.getD_some, List.cons_append,
      List.append_assoc, List.cons_append, takeExponent, if_pos (n.exponent_mark _ he)]
    simp only [takeSign_signText sg hminus hplus, htake, hdrop, if_neg (List.cons_ne_nil d t),
      decide_eq_true_eq]

/-- The digits are read. -/
theorem takeMantissa_unsignedText {rest : Bytes} (hrest : Follows rest) :
  takeMantissa isdigit 10 (n.unsignedText ++ rest)
    = some (ofDigits 10 (n.whole ++ n.frac.getD []), (n.frac.getD []).length,
        n.exponentText ++ rest)
  := by
  obtain ⟨htake, hdrop⟩ :=
    Text.span_append n.whole_digits (fun c hc => (n.head_fracText hrest hc).1)
  have hempty : ¬ (n.whole = [] ∧ n.frac.getD [] = []) := by
    rw [not_and_or]
    apply n.nonempty
  rw [unsignedText, List.append_assoc, List.append_assoc, takeMantissa, htake, hdrop]
  cases hf : n.frac with
  | none =>
    rw [hf] at hempty
    rw [fracText, hf, Option.map_none, Option.getD_none, List.nil_append]
    have hhead := fun c hc => (n.head_exponentText hrest (c := c) hc).2.1
    cases he : n.exponentText ++ rest with
    | nil =>
      apply if_neg hempty
    | cons c t =>
      rw [he] at hhead
      dsimp only
      rw [if_neg (hhead c rfl)]
      apply if_neg hempty
  | some ds =>
    rw [hf] at hempty
    obtain ⟨htake', hdrop'⟩ := Text.span_append (n.frac_digits ds hf)
      (fun c hc => (n.head_exponentText hrest hc).1)
    rw [fracText, hf, Option.map_some, Option.getD_some, List.cons_append]
    dsimp only
    rw [if_pos rfl, htake', hdrop']
    apply if_neg hempty

/-- The number without its sign is no word. -/
theorem matchWord_unsignedText {w : UInt8} (hw : isdigit w = false) (hw' : w ≠ chr '.')
    (ws rest : Bytes) :
  matchWord (w :: ws) (n.unsignedText ++ rest) = none
  := by
  obtain ⟨c, t, hct, hc⟩ := n.exists_unsignedText rest
  rw [hct, matchWord_cons_cons, if_neg]
  rintro rfl
  rcases hc with hc | rfl
  · rw [toupper_of_isdigit hc, hc] at hw
    cases hw
  · apply hw'
    rfl

/-- The number without its sign is no hexadecimal number. -/
theorem takeHex_unsignedText {rest : Bytes} (hrest : Follows rest) :
  takeHex (n.unsignedText ++ rest) = none
  := by
  have hword : matchWord (ascii "0X") (n.unsignedText ++ rest) = none := by
    rw [unsignedText, List.append_assoc, List.append_assoc]
    have hdigits := n.whole_digits
    cases hw : n.whole with
    | nil =>
      apply matchWord_cons
      intro c hc hup
      -- the text starts with the point
      have hne := n.nonempty
      rw [hw] at hne
      cases hf : n.frac with
      | none => simp [hf] at hne
      | some ds =>
        rw [List.nil_append, fracText, hf, Option.map_some, Option.getD_some, List.cons_append,
          List.head?_cons, Option.mem_some_iff] at hc
        rw [← hc] at hup
        revert hup
        decide
    | cons d w =>
      rw [hw] at hdigits
      change matchWord (chr '0' :: [chr 'X']) (d :: (w ++ _)) = none
      rw [matchWord_cons_cons]
      split_ifs
      · apply matchWord_cons
        intro c hc hup
        cases w with
        | nil => apply (n.head_fracText hrest hc).2 hup
        | cons x w =>
          rw [List.cons_append, List.head?_cons, Option.mem_some_iff] at hc
          have hx := hdigits c (by simp [← hc])
          rw [toupper_of_isdigit hx] at hup
          rw [hup] at hx
          revert hx
          decide
      · rfl
  rw [takeHex, hword]
  rfl

/-- The number without its sign is read as a decimal number. -/
theorem takeDecimal_unsignedText {rest : Bytes} (hrest : Follows rest) :
  takeDecimal (n.unsignedText ++ rest) = some (n.unsignedValue, rest)
  := by
  simp only [takeDecimal, n.takeMantissa_unsignedText hrest, Option.bind_eq_bind,
    Option.bind_some, n.takeExponent_exponentText hrest, unsignedValue]

/-- The sign is read. -/
theorem takeSign_text (rest : Bytes) :
  takeSign (n.text ++ rest) = (decide (n.sign = some true), n.unsignedText ++ rest)
  := by
  obtain ⟨c, t, hct, hc⟩ := n.exists_unsignedText rest
  have hminus : c ≠ chr '-' := by
    rintro rfl
    revert hc
    decide
  have hplus : c ≠ chr '+' := by
    rintro rfl
    revert hc
    decide
  rw [text, List.append_assoc, hct, takeSign_signText n.sign hminus hplus]

/-- No space comes before the number. -/
theorem dropWhile_text (rest : Bytes) :
  (n.text ++ rest).dropWhile isspace = n.text ++ rest
  := by
  obtain ⟨c, t, hct, hc⟩ := n.exists_unsignedText rest
  have hspace : isspace c = false := by
    rcases hc with hc | rfl
    · apply isspace_of_isdigit hc
    · rfl
  rw [text, List.append_assoc, hct]
  rcases n.sign with _ | _ | _
  · rw [signText, List.nil_append, List.dropWhile_cons_of_neg (by simp [hspace])]
  · rfl
  · rfl

/-- A decimal number is read. -/
theorem strtod_text {rest : Bytes} (hrest : Follows rest) :
  (strtod (n.text ++ rest)).value = .ofRat n.value ∧ (strtod (n.text ++ rest)).rest = rest
  := by
  have hinfinity : matchWord (ascii "INFINITY") (n.unsignedText ++ rest) = none :=
    n.matchWord_unsignedText (w := chr 'I') rfl (by decide) (ascii "NFINITY") rest
  have hinf : matchWord (ascii "INF") (n.unsignedText ++ rest) = none :=
    n.matchWord_unsignedText (w := chr 'I') rfl (by decide) (ascii "NF") rest
  have hnan : matchWord (ascii "NAN") (n.unsignedText ++ rest) = none :=
    n.matchWord_unsignedText (w := chr 'N') rfl (by decide) (ascii "AN") rest
  rw [strtod, n.dropWhile_text, n.takeSign_text]
  simp only [hinfinity, hinf, hnan, n.takeHex_unsignedText hrest, n.takeDecimal_unsignedText hrest,
    Option.or_none, Option.none_or, decide_eq_true_eq, value, and_self]

/-- A text starts with at most one number that may end where it ends. -/
theorem value_unique {n' : Decimal} {rest rest' : Bytes} (hrest : Follows rest)
    (hrest' : Follows rest') (h : n.text ++ rest = n'.text ++ rest') :
  n.value = n'.value ∧ rest = rest'
  := by
  have hsign := congrArg takeSign h
  rw [n.takeSign_text, n'.takeSign_text, Prod.mk.injEq, decide_eq_decide] at hsign
  obtain ⟨hiff, htext⟩ := hsign
  have hread := congrArg takeDecimal htext
  rw [n.takeDecimal_unsignedText hrest, n'.takeDecimal_unsignedText hrest', Option.some.injEq,
    Prod.mk.injEq] at hread
  constructor
  · rw [value, value, hread.1]
    simp only [hiff]
  · apply hread.2

end Decimal

/-! ## Reading sizes -/

/-- The text after the number is that of the suffix. -/
theorem Size.suffixMult_tail (z : Size) :
  suffixMult (z.tail.dropWhile isspace) = some (2 ^ (10 * z.power))
  := by
  rw [tail, List.dropWhile_append_of_pos z.spaces_ok, power]
  cases hu : z.suffix with
  | none => rfl
  | some u =>
    obtain ⟨unit, c⟩ := u
    have hletter : toupper c = unit.letter := z.suffix_ok _ hu
    have hspace : isspace c = false := by
      by_contra hs
      rw [Bool.not_eq_false] at hs
      rw [toupper_of_isspace hs] at hletter
      rw [hletter] at hs
      cases unit <;> exact absurd hs (by decide)
    have hdrop : [c].dropWhile isspace = [c] := by
      rw [List.dropWhile_cons_of_neg (by simp [hspace])]
    rw [Option.map_some, Option.toList_some, hdrop, Option.map_some, Option.getD_some]
    simp only [suffixMult, hletter]
    cases unit
    · norm_num [SizeUnit.letter, SizeUnit.power]
    · norm_num [SizeUnit.letter, SizeUnit.power, show chr 'M' ≠ chr 'K' by decide]
    · norm_num [SizeUnit.letter, SizeUnit.power, show chr 'G' ≠ chr 'K' by decide,
        show chr 'G' ≠ chr 'M' by decide]
    · norm_num [SizeUnit.letter, SizeUnit.power, show chr 'T' ≠ chr 'K' by decide,
        show chr 'T' ≠ chr 'M' by decide, show chr 'T' ≠ chr 'G' by decide]

/-- A text is not empty when it is a size, and its suffix is known. -/
theorem Size.suffixMult_text (z : Size) :
  z.text ≠ [] ∧ suffixMult ((strtod z.text).rest.dropWhile isspace) = some (2 ^ (10 * z.power))
  := by
  obtain ⟨c, t, hct, -⟩ := z.number.exists_unsignedText z.tail
  have hrest : (strtod z.text).rest = z.tail := (z.number.strtod_text z.follows).2
  constructor
  · rw [Size.text, Decimal.text, List.append_assoc, hct]
    simp
  · rw [hrest, z.suffixMult_tail]

/-- A rational is near to what it is truncated to. -/
theorem abs_lt_of_truncate (q : ℚ) :
  |q| < (|truncate q| : ℤ) + 1
  := by
  have hden : (0 : ℚ) < q.den := by exact_mod_cast q.den_pos
  have hnat : q.num.natAbs < ((truncate q).natAbs + 1) * q.den := by
    rw [truncate, Int.natAbs_tdiv, Int.natAbs_natCast]
    apply Nat.lt_mul_of_div_lt (Nat.lt_succ_self _) q.den_pos
  have habs : |q| = q.num.natAbs / q.den := by
    conv_lhs => rw [← Rat.num_div_den q]
    rw [abs_div, abs_of_pos hden, ← Int.cast_abs, Int.abs_eq_natAbs, Int.cast_natCast]
  rw [habs, div_lt_iff₀ hden]
  have hcast : (q.num.natAbs : ℚ) < ((truncate q).natAbs + 1) * q.den := by exact_mod_cast hnat
  rw [Int.abs_eq_natAbs, Int.cast_natCast]
  apply hcast

/-- The number of every size that is written `s` is read without rounding. -/
def StrtodExact (s : Bytes) : Prop :=
  ∀ z : Size, z.text = s → (strtod s).value = .finite z.number.value

/-- A size in the range of `long long` is read. -/
theorem cfgParseSize_size {s : Bytes} (hexact : StrtodExact s) {v : ℤ} (h : IsSize s v)
    (dflt : ℤ) :
  cfgParseSize s dflt = v
  := by
  obtain ⟨z, rfl, rfl, hlow, hhigh⟩ := h
  have hnumber : (strtod z.text).value = .finite z.number.value := hexact z rfl
  have hround : Binary64.ofRat z.number.value = .finite z.number.value := by
    rw [← hnumber]
    apply (z.number.strtod_text z.follows).1.symm
  have hvalue : z.number.value * 2 ^ (10 * z.power) = z.value := by
    rw [Size.value, pow_mul]
    norm_num
  have hsmall : |z.value| < 2 ^ 1024 := by
    have habs : |truncate z.value| ≤ 2 ^ 63 := abs_le.mpr ⟨hlow, hhigh.le⟩
    have hcast : ((|truncate z.value| : ℤ) : ℚ) ≤ 2 ^ 63 := by exact_mod_cast habs
    calc |z.value| < (|truncate z.value| : ℤ) + 1 := abs_lt_of_truncate _
      _ ≤ 2 ^ 63 + 1 := add_le_add_left hcast 1
      _ ≤ 2 ^ 63 + 2 ^ 63 := add_le_add_right (one_le_pow₀ one_le_two) _
      _ = 2 ^ 64 := by norm_num
      _ < 2 ^ 1024 := by
        apply pow_lt_pow_right₀ one_lt_two
        norm_num
  have hscale : (Binary64.finite z.number.value).scale (2 ^ (10 * z.power)) = .finite z.value := by
    rw [Binary64.scale_two_pow hround _ (by rw [hvalue]; exact hsmall), hvalue]
  obtain ⟨hne, hmult⟩ := z.suffixMult_text
  rw [cfgParseSize, if_neg hne]
  simp only [hmult, hnumber, hscale, Binary64.toInt64]
  rw [if_pos ⟨hlow, hhigh⟩]
  rfl

/-- `cfg_parse_size` takes exactly the sizes: it gives their value, and the default for every
other text. -/
def ParsesSizes (s : Bytes) : Prop :=
  (∀ v, IsSize s v → ∀ dflt, cfgParseSize s dflt = v) ∧
    ((¬ ∃ v, IsSize s v) → ∀ dflt, cfgParseSize s dflt = dflt)

/-- What follows the number and spaces is neither the end nor the letter of a suffix. -/
def UnknownSuffix (s : Bytes) : Prop :=
  ∃ c t, (strtod s).rest.dropWhile isspace = c :: t ∧ ∀ u : SizeUnit, toupper c ≠ u.letter

/-- A text has a factor unless what follows its number is unknown. -/
theorem suffixMult_eq_none_iff (s : Bytes) :
  suffixMult s = none ↔ ∃ c t, s = c :: t ∧ ∀ u : SizeUnit, toupper c ≠ u.letter
  := by
  cases s with
  | nil => simp [suffixMult]
  | cons c t =>
    constructor
    · intro h
      refine ⟨c, t, rfl, ?_⟩
      intro u hu
      rw [suffixMult, hu] at h
      revert h
      cases u <;> decide
    · rintro ⟨d, t', heq, hne⟩
      obtain ⟨rfl, rfl⟩ := List.cons.inj heq
      have hk : toupper c ≠ chr 'K' := hne .k
      have hm : toupper c ≠ chr 'M' := hne .m
      have hg : toupper c ≠ chr 'G' := hne .g
      have ht : toupper c ≠ chr 'T' := hne .t
      rw [suffixMult, if_neg hk, if_neg hm, if_neg hg, if_neg ht]

/-- `cfg_parse_size` takes exactly the sizes on a text that is a size, that is empty, or where
something unknown follows the number. -/
theorem parsesSizes_iff (s : Bytes) (hexact : StrtodExact s) :
  ParsesSizes s ↔ (∃ v, IsSize s v) ∨ s = [] ∨ UnknownSuffix s
  := by
  constructor
  · rintro ⟨-, hother⟩
    by_contra hcond
    push Not at hcond
    obtain ⟨hsize, hne, hknown⟩ := hcond
    cases hmult : suffixMult ((strtod s).rest.dropWhile isspace) with
    | none => apply hknown ((suffixMult_eq_none_iff _).mp hmult)
    | some mult =>
      have hconst : ∀ dflt, cfgParseSize s dflt = ((strtod s).value.scale mult).toInt64 := by
        intro dflt
        rw [cfgParseSize, if_neg hne]
        simp only [hmult]
      have hdefault := hother (not_exists.mpr hsize)
      have hzero := hdefault 0
      have hone := hdefault 1
      rw [hconst] at hzero hone
      omega
  · intro hcond
    constructor
    · intro v hv dflt
      apply cfgParseSize_size hexact hv
    · intro hnone dflt
      rcases hcond with hsize | hnil | hunknown
      · exact absurd hsize hnone
      · rw [cfgParseSize, if_pos hnil]
      · have hmult := (suffixMult_eq_none_iff _).mpr hunknown
        rw [cfgParseSize]
        split_ifs
        · rfl
        · simp only [hmult]

/-- The number `64`. -/
def sixtyFour : Decimal where
  sign := none
  whole := ascii "64"
  frac := none
  exponent := none
  whole_digits := List.all_eq_true.mp rfl
  frac_digits _ h := by cases h
  nonempty := Or.inl (by decide)
  exponent_mark _ h := by cases h
  exponent_digits _ h := by cases h

/-- The value of the number `64`. -/
theorem sixtyFour_value :
  sixtyFour.value = (64 : ℤ) ∧ Binary64.ofRat sixtyFour.value = .finite (64 : ℤ)
  := by
  have hdigits : ofDigits 10 (ascii "64") = 64 := by decide
  have hvalue : sixtyFour.value = (64 : ℤ) := by
    simp [Decimal.value, Decimal.unsignedValue, Decimal.exponentValue, sixtyFour, hdigits]
  constructor
  · apply hvalue
  · rw [hvalue, Binary64.ofRat_intCast (by norm_num)]

/-- `parsesSizes_iff` for a size with a space and a suffix in lower case. -/
theorem parsesSizes_iff_example :
  StrtodExact (ascii "64 m") ∧ IsSize (ascii "64 m") (64 * 1024 ^ 2) ∧ ParsesSizes (ascii "64 m")
  := by
  obtain ⟨hvalue, hround⟩ := sixtyFour_value
  have hspace : ∀ c ∈ [chr ' '], isspace c = true := List.forall_mem_singleton.mpr rfl
  have hsuffix : ∀ u ∈ some (SizeUnit.m, chr 'm'), toupper u.2 = u.1.letter := by
    intro u hu
    rw [← Option.mem_some_iff.mp hu]
    rfl
  let z : Size := ⟨sixtyFour, [chr ' '], some (.m, chr 'm'), hspace, hsuffix⟩
  have htext : z.text = ascii "64 m" := rfl
  have hexact : StrtodExact (ascii "64 m") := by
    intro z' hz'
    have hsame := (z'.number.value_unique z'.follows z.follows (hz'.trans htext.symm)).1
    rw [← hz', Size.text, (z'.number.strtod_text z'.follows).1, hsame]
    rw [hround, hvalue]
  have hsize : IsSize (ascii "64 m") (64 * 1024 ^ 2) := by
    have hscaled : z.value = (64 * 1024 ^ 2 : ℤ) := by
      change sixtyFour.value * 1024 ^ 2 = _
      rw [hvalue]
      norm_num
    refine ⟨z, htext, ?_, by norm_num, by norm_num⟩
    rw [hscaled, truncate, Rat.num_intCast, Rat.den_intCast, Nat.cast_one, Int.tdiv_one]
  exact ⟨hexact, hsize, (parsesSizes_iff _ hexact).mpr (Or.inl ⟨_, hsize⟩)⟩

/-- Text after a suffix is ignored, while `64MB` is no size. -/
theorem size_mb :
  StrtodExact (ascii "64MB") ∧ (¬ ∃ v, IsSize (ascii "64MB") v) ∧
    (∀ dflt, cfgParseSize (ascii "64MB") dflt = 64 * 1024 ^ 2) ∧ ¬ ParsesSizes (ascii "64MB")
  := by
  obtain ⟨hvalue, hround⟩ := sixtyFour_value
  have hfollows : Follows (ascii "MB") := by
    intro c hc
    rw [← Option.mem_some_iff.mp hc]
    exact Or.inr ⟨.m, rfl⟩
  have hnone : ∀ z : Size, z.text ≠ ascii "64MB" := by
    intro z hz
    have htext : z.number.text ++ z.tail = sixtyFour.text ++ ascii "MB" := hz
    have htail := (z.number.value_unique z.follows hfollows htext).2
    rw [Size.tail] at htail
    cases hs : z.spaces with
    | nil =>
      have hlen := congrArg List.length htail
      rw [hs, List.nil_append] at hlen
      cases hu : z.suffix with
      | none => simp [hu, ascii] at hlen
      | some u => simp [hu, ascii] at hlen
    | cons c cs =>
      have hc := z.spaces_ok c (by simp [hs])
      rw [hs] at htail
      rw [(List.cons.inj htail).1] at hc
      revert hc
      decide
  have hsize : ¬ ∃ v, IsSize (ascii "64MB") v := fun ⟨_, z, hz, _⟩ => hnone z hz
  have hparse : ∀ dflt, cfgParseSize (ascii "64MB") dflt = 64 * 1024 ^ 2 := by
    intro dflt
    obtain ⟨hread, hrest⟩ := sixtyFour.strtod_text hfollows
    change (strtod (ascii "64MB")).value = _ at hread
    change (strtod (ascii "64MB")).rest = _ at hrest
    have hmult : suffixMult ((ascii "MB").dropWhile isspace) = some (2 ^ 20) := by
      have hfactor : suffixMult ((ascii "MB").dropWhile isspace) = some (1024 * 1024) := rfl
      rw [hfactor]
      norm_num
    have hscale : (Binary64.finite (64 : ℤ)).scale (2 ^ 20) = .finite (64 * 1024 ^ 2 : ℤ) := by
      have hprod : ((64 : ℤ) : ℚ) * 2 ^ 20 = (64 * 1024 ^ 2 : ℤ) := by norm_num
      rw [Binary64.scale, hprod, Binary64.ofRat_intCast (by norm_num)]
    rw [cfgParseSize, if_neg (by decide)]
    simp only [hrest, hmult, hread, hround, hscale]
    apply Binary64.toInt64_intCast
    · norm_num
    · norm_num
  refine ⟨fun z hz => absurd hz (hnone z), hsize, hparse, ?_⟩
  rintro ⟨-, hdefault⟩
  have hzero := hdefault hsize 0
  rw [hparse] at hzero
  revert hzero
  norm_num

end Keybench
