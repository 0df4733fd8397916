import Keybench.Run.Affinity

/-!
# The text of a CPU set

`kb_format_set` prints the ranges of a list of CPUs as long as they fit its buffer, and then a
marker.  The marker is cut as well when fewer than four bytes are left for it, so a list that
was cut can look complete.  `completeOrMarked_iff` says exactly when it is marked.
-/

namespace Keybench

/-- The text of a list of ranges. -/
def renderRanges (rs : List (ℕ × ℕ)) : Bytes := (ascii ",").intercalate (rs.map rangeText)

/-- The number that a text of digits stands for. -/
def parseNumber (s : Bytes) : Option ℕ :=
  if s ≠ [] ∧ s.all isdigit then some (ofDigits 10 s) else none

/-- The numbers of a range that was printed. -/
def parseRange (s : Bytes) : Option (List ℕ) :=
  match Text.splitFirst (chr '-') s with
  | some (a, b) => do
    let a ← parseNumber a
    let b ← parseNumber b
    some (Ranges.expand (a, b))
  | none => (parseNumber s).map fun a => [a]

/-- The numbers of a list that was printed. -/
def parseSet (s : Bytes) : Option (List ℕ) :=
  if s = [] then some [] else ((s.splitOn (chr ',')).mapM parseRange).map List.flatten

/-- A text is the complete rendering of the maximal ranges of a list, which decodes to the list,
or that of the first of them with a marker behind it. -/
def CompleteOrMarked (cpus : List ℕ) (out : Bytes) : Prop :=
  ∃ rs, Ranges.IsMaximal cpus rs ∧
    (out = renderRanges rs ∧ parseSet out = some cpus ∨
      ∃ pre r post, rs = pre ++ r :: post ∧ out = renderRanges pre ++ ascii "...")

/-- Where the ranges of a list stop fitting a buffer, four bytes are left for the marker. -/
def MarkerFits (cpus : List ℕ) (n : ℕ) : Prop :=
  ∀ pre r post, Ranges.ranges cpus = pre ++ r :: post → (renderRanges pre).length < n →
    n ≤ (renderRanges (pre ++ [r])).length → (renderRanges pre).length + 4 ≤ n

/-! ## The rendering -/

theorem rangeText_ne_nil (r : ℕ × ℕ) :
  rangeText r ≠ []
  := by
  rw [rangeText]
  split_ifs
  · simp [fmtNat_ne_nil]
  · apply fmtNat_ne_nil

/-- The characters of a range are digits and the hyphen. -/
theorem mem_rangeText {r : ℕ × ℕ} {c : UInt8} (h : c ∈ rangeText r) :
  isdigit c = true ∨ c = chr '-'
  := by
  rw [rangeText] at h
  split_ifs at h
  · rcases List.mem_append.mp h with h | h
    · rcases List.mem_append.mp h with h | h
      · exact Or.inl (isdigit_of_mem_fmtNat h)
      · exact Or.inr (List.mem_singleton.mp h)
    · exact Or.inl (isdigit_of_mem_fmtNat h)
  · exact Or.inl (isdigit_of_mem_fmtNat h)

/-- Only no range has no text. -/
theorem renderRanges_eq_nil_iff {rs : List (ℕ × ℕ)} :
  renderRanges rs = [] ↔ rs = []
  := by
  cases rs with
  | nil => exact ⟨fun _ => rfl, fun _ => rfl⟩
  | cons r rs =>
    cases rs with
    | nil => simp [renderRanges, rangeText_ne_nil]
    | cons s rs => simp [renderRanges, rangeText_ne_nil]

/-- One more range is printed after a comma, unless it is the first. -/
theorem renderRanges_append_singleton (pre : List (ℕ × ℕ)) (r : ℕ × ℕ) :
  renderRanges (pre ++ [r]) = renderRanges pre ++ formatRange (renderRanges pre) r
  := by
  rw [formatRange]
  by_cases hpre : pre = []
  · simp [hpre, renderRanges]
  · have hne : pre.map rangeText ≠ [] := by simpa using hpre
    rw [if_pos (by simpa [renderRanges_eq_nil_iff] using hpre), renderRanges, renderRanges,
      List.map_append, List.map_singleton, Text.intercalate_append_singleton _ _ hne,
      List.append_assoc]

/-- More ranges have a longer text. -/
theorem length_renderRanges_lt (pre : List (ℕ × ℕ)) (r : ℕ × ℕ) (post : List (ℕ × ℕ)) :
  (renderRanges pre).length < (renderRanges (pre ++ r :: post)).length
  := by
  induction post using List.reverseRecOn with
  | nil =>
    have hpos := List.length_pos_of_ne_nil (rangeText_ne_nil r)
    rw [renderRanges_append_singleton, List.length_append, formatRange, List.length_append]
    omega
  | append_singleton post s ih =>
    have happ : pre ++ r :: (post ++ [s]) = (pre ++ r :: post) ++ [s] := by simp
    rw [happ, renderRanges_append_singleton, List.length_append]
    omega

/-- The text of the first ranges is not longer. -/
theorem length_renderRanges_le {pre rs : List (ℕ × ℕ)} (h : pre <+: rs) :
  (renderRanges pre).length ≤ (renderRanges rs).length
  := by
  obtain ⟨post, rfl⟩ := h
  cases post with
  | nil => rw [List.append_nil]
  | cons r post => apply (length_renderRanges_lt pre r post).le

/-- No text of ranges holds a point. -/
theorem point_notMem_renderRanges (rs : List (ℕ × ℕ)) :
  chr '.' ∉ renderRanges rs
  := by
  intro h
  rcases Text.mem_intercalate h with h | ⟨part, hpart, h⟩
  · revert h
    decide
  · obtain ⟨r, -, rfl⟩ := List.mem_map.mp hpart
    rcases mem_rangeText h with h | h
    · revert h
      decide
    · revert h
      decide

/-! ## Reading the rendering back -/

theorem parseNumber_fmtNat (n : ℕ) :
  parseNumber (fmtNat n) = some n
  := by
  have hall : (fmtNat n).all isdigit = true :=
    List.all_eq_true.mpr (fun c hc => isdigit_of_mem_fmtNat hc)
  rw [parseNumber, if_pos ⟨fmtNat_ne_nil n, hall⟩, ofDigits_fmtNat]

/-- Digits hold no character that is not a digit. -/
theorem notMem_fmtNat {c : UInt8} (h : isdigit c = false) (n : ℕ) :
  c ∉ fmtNat n
  := by
  intro hc
  rw [isdigit_of_mem_fmtNat hc] at h
  cases h

/-- The text of a range is read as its numbers. -/
theorem parseRange_rangeText {r : ℕ × ℕ} (hr : r.1 ≤ r.2) :
  parseRange (rangeText r) = some (Ranges.expand r)
  := by
  rw [rangeText]
  split_ifs with h
  · have hsplit := Text.splitFirst_append (fmtNat r.2) (notMem_fmtNat (c := chr '-') rfl r.1)
    have happ : fmtNat r.1 ++ ascii "-" ++ fmtNat r.2 = fmtNat r.1 ++ chr '-' :: fmtNat r.2 := by
      rw [List.append_assoc]
      rfl
    rw [happ, parseRange, hsplit]
    simp [parseNumber_fmtNat]
  · have heq : r = (r.1, r.1) := by
      ext
      · rfl
      · show r.2 = r.1
        omega
    rw [parseRange, Text.splitFirst_eq_none (notMem_fmtNat rfl r.1), parseNumber_fmtNat, heq,
      Ranges.expand_single, Option.map_some]

/-- The complete rendering is read as the numbers of the ranges. -/
theorem parseSet_renderRanges {rs : List (ℕ × ℕ)} (h : ∀ r ∈ rs, r.1 ≤ r.2) :
  parseSet (renderRanges rs) = some (rs.flatMap Ranges.expand)
  := by
  by_cases hnil : rs = []
  · rw [hnil]
    rfl
  · have hcomma : ∀ part ∈ rs.map rangeText, chr ',' ∉ part := by
      intro part hpart hc
      obtain ⟨r, -, rfl⟩ := List.mem_map.mp hpart
      rcases mem_rangeText hc with hc | hc
      · revert hc
        decide
      · revert hc
        decide
    have hparts : (renderRanges rs).splitOn (chr ',') = rs.map rangeText := by
      apply List.splitOn_intercalate (chr ',') hcomma
      simpa using hnil
    have hread : (rs.map rangeText).mapM parseRange = some (rs.map Ranges.expand) := by
      rw [List.mapM_map]
      apply Text.mapM_eq_some
      intro r hr
      apply parseRange_rangeText (h r hr)
    rw [parseSet, if_neg (by rw [renderRanges_eq_nil_iff]; exact hnil), hparts, hread,
      Option.map_some, List.flatMap]

/-! ## What is left in the buffer -/

/-- The loop ends with all ranges printed, or at the first that does not fit. -/
theorem formatSetLoop_spec (n : ℕ) (pre : List (ℕ × ℕ)) (cpus : List ℕ)
    (hpre : (renderRanges pre).length < n) :
  ((renderRanges (pre ++ Ranges.ranges cpus)).length < n ∧
      formatSetLoop n (renderRanges pre) cpus = renderRanges (pre ++ Ranges.ranges cpus)) ∨
    ∃ rs r post, Ranges.ranges cpus = rs ++ r :: post ∧
      (renderRanges (pre ++ rs)).length < n ∧
      n ≤ (renderRanges (pre ++ rs ++ [r])).length ∧
      formatSetLoop n (renderRanges pre) cpus = renderRanges (pre ++ rs)
        ++ snprintfStr (n - (renderRanges (pre ++ rs)).length) (ascii "...")
  := by
  induction hlen : cpus.length using Nat.strong_induction_on generalizing pre cpus with
  | _ len ih =>
    subst hlen
    cases cpus with
    | nil =>
      left
      rw [formatSetLoop, Ranges.ranges_nil, List.append_nil]
      exact ⟨hpre, rfl⟩
    | cons c cpus =>
      have hranges := Ranges.ranges_cons_eq c cpus
      have hstep := renderRanges_append_singleton pre (c, (Ranges.runEnd c cpus).1)
      have hrest : (Ranges.runEnd c cpus).2.length < (c :: cpus).length :=
        Nat.lt_succ_of_le (Ranges.runEnd_length c cpus)
      rw [formatSetLoop, hranges]
      split_ifs with hfull
      · right
        refine ⟨[], _, _, rfl, ?_, ?_, ?_⟩
        · rw [List.append_nil]
          apply hpre
        · rw [List.append_nil, hstep, List.length_append]
          omega
        · rw [List.append_nil]
      · have hnext : (renderRanges (pre ++ [(c, (Ranges.runEnd c cpus).1)])).length < n := by
          rw [hstep, List.length_append]
          omega
        have hrec := ih _ hrest (pre ++ [(c, (Ranges.runEnd c cpus).1)]) _ hnext rfl
        rw [hstep, List.append_assoc, List.singleton_append] at hrec
        rcases hrec with hrec | ⟨rs, r, post, heq, hlt, hge, hout⟩
        · exact Or.inl hrec
        · right
          refine ⟨(c, (Ranges.runEnd c cpus).1) :: rs, r, post, ?_, ?_, ?_, ?_⟩
          · rw [heq, List.cons_append]
          · simpa using hlt
          · simpa using hge
          · simpa using hout

/-- Of two places in a list of ranges, one where the next range does not fit is not before one
up to which the ranges fit. -/
theorem length_le_of_stops {n : ℕ} {pre pre' post post' : List (ℕ × ℕ)} {r r' : ℕ × ℕ}
    (heq : pre ++ r :: post = pre' ++ r' :: post') (hlt : (renderRanges pre').length < n)
    (hge : n ≤ (renderRanges (pre ++ [r])).length) :
  pre'.length ≤ pre.length
  := by
  by_contra hlong
  have hprefix : pre ++ [r] <+: pre' := by
    have hwhole : pre ++ [r] <+: pre ++ r :: post := by
      use post
      rw [List.append_assoc, List.singleton_append]
    apply List.prefix_of_prefix_length_le hwhole
    · rw [heq]
      apply List.prefix_append
    · rw [List.length_append, List.length_singleton]
      omega
  have hmono := length_renderRanges_le hprefix
  omega

/-- The place where the ranges stop fitting is unique. -/
theorem eq_of_stops {n : ℕ} {pre pre' post post' : List (ℕ × ℕ)} {r r' : ℕ × ℕ}
    (heq : pre ++ r :: post = pre' ++ r' :: post') (hlt : (renderRanges pre).length < n)
    (hge : n ≤ (renderRanges (pre ++ [r])).length) (hlt' : (renderRanges pre').length < n)
    (hge' : n ≤ (renderRanges (pre' ++ [r'])).length) :
  pre = pre'
  := by
  have hle := length_le_of_stops heq hlt' hge
  have hle' := length_le_of_stops heq.symm hlt hge'
  apply (List.append_inj heq (le_antisymm hle' hle)).1

/-- The points in what is left of the marker. -/
theorem count_marker (pre : List (ℕ × ℕ)) (k : ℕ) :
  (renderRanges pre ++ snprintfStr k (ascii "...")).count (chr '.') = min (k - 1) 3
  := by
  have hpre := List.count_eq_zero_of_not_mem (point_notMem_renderRanges pre)
  have hdots : ascii "..." = List.replicate 3 (chr '.') := rfl
  rw [List.count_append, hpre, Nat.zero_add, snprintfStr, hdots, List.take_replicate,
    List.count_replicate_self]

/-- A list that is complete or marked has room for the marker where it was cut. -/
theorem markerFits_of_completeOrMarked {cpus : List ℕ} {n : ℕ} (hn : 1 ≤ n)
    (h : CompleteOrMarked cpus (kbFormatSet cpus n)) :
  MarkerFits cpus n
  := by
  intro pre r post hranges hlt hge
  obtain ⟨rs, hmax, hout⟩ := h
  obtain rfl := hmax.eq_ranges
  have hloop := formatSetLoop_spec n [] cpus hn
  rw [List.nil_append] at hloop
  rcases hloop with ⟨hall, -⟩ | ⟨pre', r', post', hranges', hlt', hge', hcut⟩
  · -- all ranges fit, so none of them stops the loop
    have hprefix : pre ++ [r] <+: Ranges.ranges cpus := by
      use post
      rw [hranges, List.append_assoc, List.singleton_append]
    have hmono := length_renderRanges_le hprefix
    omega
  · rw [List.nil_append] at hlt' hge' hcut
    obtain rfl : pre = pre' := eq_of_stops (hranges.symm.trans hranges') hlt hge hlt' hge'
    have hcount := count_marker pre (n - (renderRanges pre).length)
    have hkb : kbFormatSet cpus n = renderRanges pre
        ++ snprintfStr (n - (renderRanges pre).length) (ascii "...") := hcut
    rw [← hkb] at hcount
    rcases hout with ⟨hout, -⟩ | ⟨pre'', r'', post'', -, hout⟩
    · -- a complete list has no point, so nothing was printed behind the ranges
      rw [hout, List.count_eq_zero_of_not_mem (point_notMem_renderRanges _)] at hcount
      have hlen := congrArg List.length (hout.symm.trans hkb)
      have hshort := length_renderRanges_lt pre r post
      rw [← hranges, hlen, List.length_append, snprintfStr, List.length_take] at hshort
      omega
    · -- a marked list has three points
      have hthree := count_marker pre'' 4
      rw [snprintfStr, List.take_of_length_le (by decide), ← hout, hcount] at hthree
      omega

/-- `kb_format_set` leaves the complete list or a marked one exactly when there is room for the
marker where the ranges stop fitting. -/
theorem completeOrMarked_iff {cpus : List ℕ} (hcpus : cpus.Pairwise (· < ·)) {n : ℕ}
    (hn : 1 ≤ n) :
  CompleteOrMarked cpus (kbFormatSet cpus n) ↔ MarkerFits cpus n
  := by
  constructor
  · apply markerFits_of_completeOrMarked hn
  · intro hfits
    have hmax := Ranges.isMaximal_ranges (List.isChain_iff_pairwise.mpr hcpus)
    use Ranges.ranges cpus, hmax
    have hloop := formatSetLoop_spec n [] cpus hn
    rw [List.nil_append] at hloop
    rcases hloop with ⟨-, hall⟩ | ⟨pre, r, post, hranges, hlt, hge, hcut⟩
    · left
      have hout : kbFormatSet cpus n = renderRanges (Ranges.ranges cpus) := hall
      rw [hout, parseSet_renderRanges hmax.le, hmax.covers]
      exact ⟨rfl, rfl⟩
    · right
      rw [List.nil_append] at hlt hge hcut
      have hroom := hfits pre r post hranges hlt hge
      have hwhole : snprintfStr (n - (renderRanges pre).length) (ascii "...") = ascii "..." := by
        have hlen : (ascii "...").length = 3 := rfl
        rw [snprintfStr, List.take_of_length_le]
        omega
      rw [hwhole] at hcut
      exact ⟨pre, r, post, hranges, hcut⟩

/-- Three CPUs in a buffer with room for two of them and one byte more. -/
theorem completeOrMarked_iff_example :
  CompleteOrMarked [0, 2, 4] (kbFormatSet [0, 2, 4] 5) ↔ MarkerFits [0, 2, 4] 5
  := completeOrMarked_iff (by decide) (by decide)

/-- The CPUs of a set whose first 33 ranges fill a buffer of 96 bytes. -/
def crowdedCpus : List ℕ := (List.range 31).map (2 * ·) ++ [100, 102, 104]

/-- In the buffer of `kb_affinity_init` the list of these CPUs ends without its last one and
without a marker. -/
theorem completeOrMarked_not :
  crowdedCpus.Pairwise (· < ·) ∧ ¬ CompleteOrMarked crowdedCpus (kbFormatSet crowdedCpus 96)
  := by
  constructor
  · decide +kernel
  · intro h
    have hfits := markerFits_of_completeOrMarked (by decide) h
    have hroom := hfits ((Ranges.ranges crowdedCpus).take 33) (104, 104) [] (by decide +kernel)
      (by decide +kernel) (by decide +kernel)
    revert hroom
    decide +kernel

end Keybench
