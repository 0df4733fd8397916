import Keybench.Lib.Text
import Mathlib.Algebra.GroupWithZero.Nat
import Mathlib.Data.List.Count

/-!
# Separated values

A reader of texts with separated values that is not strict, as a machine on characters.  Fields
that are plain are read as they are written (`rows_plain`).  A field that holds a delimiter or a
line end, or that begins with a quote, takes at least one quote more in the text than it has
itself (`rows_cost`).
-/

namespace Csv

/-- How values are separated and quoted, and how long a field may be. -/
structure Dialect where
  delimiter : Char
  quote : Char
  limit : ℕ
  quote_ne_delimiter : quote ≠ delimiter
  delimiter_ne_newline : delimiter ≠ '\n' ∧ delimiter ≠ '\r'
  quote_ne_newline : quote ≠ '\n' ∧ quote ≠ '\r'

/-- The states of the reader. -/
inductive State
  | startRecord | startField | inField | inQuoted | quoteInQuoted | eatCrnl
deriving DecidableEq, Repr

/-- The reader: its state, the field it reads and the fields it has read. -/
structure Reader where
  state : State := .startRecord
  field : List Char := []
  fields : List (List Char) := []
deriving DecidableEq, Repr

/-- The characters that end a line. -/
def newline (c : Char) : Bool := c = '\n' || c = '\r'

/-- The reader with the field saved. -/
def Reader.saveField (r : Reader) (state : State) : Reader := ⟨state, [], r.fields ++ [r.field]⟩

section

variable (d : Dialect)

/-- The reader with a character added to the field. -/
def Reader.addChar (r : Reader) (state : State) (c : Char) : Option Reader :=
  if r.field.length ≥ d.limit then none else some { r with state, field := r.field ++ [c] }

/-- What a character does at the start of a field. -/
def startField (r : Reader) (c : Char) : Option Reader :=
  if newline c then some (r.saveField .eatCrnl)
  else if c = d.quote then some { r with state := .inQuoted }
  else if c = d.delimiter then some (r.saveField .startField)
  else r.addChar d .inField c

/-- What a character does. -/
def step (r : Reader) (c : Char) : Option Reader :=
  match r.state with
  | .startRecord =>
    if newline c then some { r with state := .eatCrnl } else startField d r c
  | .startField => startField d r c
  | .inField =>
    if newline c then some (r.saveField .eatCrnl)
    else if c = d.delimiter then some (r.saveField .startField)
    else r.addChar d .inField c
  | .inQuoted =>
    if c = d.quote then some { r with state := .quoteInQuoted } else r.addChar d .inQuoted c
  | .quoteInQuoted =>
    if c = d.quote then r.addChar d .inQuoted c
    else if c = d.delimiter then some (r.saveField .startField)
    else if newline c then some (r.saveField .eatCrnl)
    else r.addChar d .inField c
  | .eatCrnl => if newline c then some r else none

/-- What the end of a line does. -/
def endLine (r : Reader) : Reader :=
  match r.state with
  | .startRecord => r
  | .startField => r.saveField .startRecord
  | .inField => r.saveField .startRecord
  | .inQuoted => r
  | .quoteInQuoted => r.saveField .startRecord
  | .eatCrnl => { r with state := .startRecord }

/-- The records of lines: a record goes on to the next line inside quotes. -/
def rows : Reader → List (List Char) → Option (List (List (List Char)))
  | r, [] => if r.field ≠ [] ∨ r.state = .inQuoted then some [r.fields ++ [r.field]] else some []
  | r, line :: lines => do
    let r' ← line.foldlM (step d) r
    if (endLine r').state = .startRecord then
      (rows {} lines).map (fun recs => (endLine r').fields :: recs)
    else rows (endLine r') lines

end

/-! ## Lines -/

/-- The lines of a text with their ends: a line feed, a carriage return, or both. -/
def lines : List Char → List (List Char)
  | [] => []
  | c :: cs =>
    if c = '\n' ∨ (c = '\r' ∧ cs.head? ≠ some '\n') then [c] :: lines cs
    else
      match lines cs with
      | [] => [[c]]
      | l :: ls => (c :: l) :: ls

/-- The lines make the text. -/
theorem flatten_lines (cs : List Char) :
  (lines cs).flatten = cs
  := by
  induction cs with
  | nil => rfl
  | cons c cs ih =>
    rw [lines]
    split_ifs
    · rw [List.flatten_cons, ih, List.singleton_append]
    · cases hlines : lines cs with
      | nil =>
        rw [hlines, List.flatten_nil] at ih
        simp [← ih]
      | cons l ls =>
        rw [hlines, List.flatten_cons] at ih
        simp [← ih]

/-- A line that ends with a line feed. -/
theorem lines_append {l : List Char} (h : ∀ c ∈ l, newline c = false) (cs : List Char) :
  lines (l ++ '\n' :: cs) = (l ++ ['\n']) :: lines cs
  := by
  induction l with
  | nil => simp [lines]
  | cons c l ih =>
    obtain ⟨hc, hl⟩ := List.forall_mem_cons.mp h
    have hnot : ¬ (c = '\n' ∨ (c = '\r' ∧ (l ++ '\n' :: cs).head? ≠ some '\n')) := by
      simp only [newline, Bool.or_eq_false_iff, decide_eq_false_iff_not] at hc
      tauto
    rw [List.cons_append, lines, if_neg hnot, ih hl]
    rfl

/-! ## Plain fields -/

section

variable {d : Dialect}

/-- A field that needs no quotes. -/
def Clean (d : Dialect) (f : List Char) : Prop :=
  (∀ c ∈ f, c ≠ d.delimiter ∧ newline c = false) ∧ f.head? ≠ some d.quote

instance decidableClean (d : Dialect) (f : List Char) : Decidable (Clean d f) :=
  @instDecidableAnd _ _ (List.decidableBAll _ f) inferInstance

/-- The reader before a field. -/
def Reader.AtStart (r : Reader) : Prop :=
  (r.state = .startRecord ∨ r.state = .startField) ∧ r.field = []

/-- Reading characters inside a field. -/
theorem foldlM_inField {cs : List Char} (h : ∀ c ∈ cs, c ≠ d.delimiter ∧ newline c = false)
    {field : List Char} (fields : List (List Char)) (hlen : field.length + cs.length ≤ d.limit) :
  cs.foldlM (step d) ⟨.inField, field, fields⟩ = some ⟨.inField, field ++ cs, fields⟩
  := by
  induction cs generalizing field with
  | nil => simp
  | cons c cs ih =>
    obtain ⟨⟨hdelim, hnl⟩, hcs⟩ := List.forall_mem_cons.mp h
    rw [List.length_cons] at hlen
    have hstep : step d ⟨.inField, field, fields⟩ c = some ⟨.inField, field ++ [c], fields⟩ := by
      simp only [step, hnl, hdelim, Reader.addChar, if_false, Bool.false_eq_true]
      rw [if_neg (by omega)]
    rw [List.foldlM_cons, hstep, Option.bind_eq_bind, Option.bind_some, ih hcs, List.append_assoc,
      List.singleton_append]
    rw [List.length_append, List.length_singleton]
    omega

/-- Reading a plain field that is not empty. -/
theorem foldlM_field {r : Reader} (hr : r.AtStart) {f : List Char} (hf : Clean d f) (hne : f ≠ [])
    (hlen : f.length ≤ d.limit) :
  f.foldlM (step d) r = some ⟨.inField, f, r.fields⟩
  := by
  obtain ⟨c, cs, rfl⟩ := List.exists_cons_of_ne_nil hne
  obtain ⟨hall, hhead⟩ := hf
  obtain ⟨⟨hdelim, hnl⟩, hcs⟩ := List.forall_mem_cons.mp hall
  have hquote : c ≠ d.quote := by simpa using hhead
  rw [List.length_cons] at hlen
  have hstart : startField d r c = some ⟨.inField, [c], r.fields⟩ := by
    have hroom : ¬ r.field.length ≥ d.limit := by
      rw [hr.2, List.length_nil]
      omega
    rw [startField, if_neg (by simp [hnl]), if_neg hquote, if_neg hdelim, Reader.addChar,
      if_neg hroom, hr.2]
    rfl
  have hstep : step d r c = some ⟨.inField, [c], r.fields⟩ := by
    rw [step]
    rcases hr.1 with hstate | hstate
    · simp only [hstate, hnl, Bool.false_eq_true, if_false, hstart]
    · simp only [hstate, hstart]
  rw [List.foldlM_cons, hstep, Option.bind_eq_bind, Option.bind_some, foldlM_inField hcs]
  · rfl
  · rw [List.length_singleton]
    omega

/-- Reading a plain field up to its delimiter. -/
theorem foldlM_delimiter {r : Reader} (hr : r.AtStart) {f : List Char} (hf : Clean d f)
    (hlen : f.length ≤ d.limit) :
  (f ++ [d.delimiter]).foldlM (step d) r = some ⟨.startField, [], r.fields ++ [f]⟩
  := by
  have hnl : newline d.delimiter = false := by
    simp [newline, d.delimiter_ne_newline]
  by_cases hne : f = []
  · subst hne
    have hstart : startField d r d.delimiter = some ⟨.startField, [], r.fields ++ [[]]⟩ := by
      rw [startField, if_neg (by simp [hnl]), if_neg d.quote_ne_delimiter.symm, if_pos rfl,
        Reader.saveField, hr.2]
    rw [List.nil_append, List.foldlM_cons, step]
    rcases hr.1 with hstate | hstate
    · simp only [hstate, hnl, Bool.false_eq_true, if_false, hstart]
      rfl
    · simp only [hstate, hstart]
      rfl
  · rw [List.foldlM_append, foldlM_field hr hf hne hlen, Option.bind_eq_bind, Option.bind_some,
      List.foldlM_cons]
    simp [step, hnl, Reader.saveField]

/-- Reading the last plain field of a line. -/
theorem foldlM_last {r : Reader} (hr : r.AtStart) {f : List Char} (hf : Clean d f)
    (hlen : f.length ≤ d.limit) (hempty : r.state = .startField ∨ f ≠ []) :
  (f ++ ['\n']).foldlM (step d) r = some ⟨.eatCrnl, [], r.fields ++ [f]⟩
  := by
  have hnl : newline '\n' = true := rfl
  by_cases hne : f = []
  · have hstate : r.state = .startField := hempty.resolve_right (not_not.mpr hne)
    rw [hne, List.nil_append, List.foldlM_cons, step]
    simp [hstate, startField, hnl, Reader.saveField, hr.2]
  · rw [List.foldlM_append, foldlM_field hr hf hne hlen, Option.bind_eq_bind, Option.bind_some,
      List.foldlM_cons]
    simp [step, hnl, Reader.saveField]

/-- Reading a line of plain fields. -/
theorem foldlM_record {r : Reader} (hr : r.AtStart) {fs : List (List Char)} (hfs : fs ≠ [])
    (hclean : ∀ f ∈ fs, Clean d f) (hlen : ∀ f ∈ fs, f.length ≤ d.limit)
    (hempty : r.state = .startField ∨ fs ≠ [[]]) :
  ([d.delimiter].intercalate fs ++ ['\n']).foldlM (step d) r
    = some ⟨.eatCrnl, [], r.fields ++ fs⟩
  := by
  induction fs generalizing r with
  | nil => exact absurd rfl hfs
  | cons f fs ih =>
    obtain ⟨hf, hfs'⟩ := List.forall_mem_cons.mp hclean
    obtain ⟨hlf, hlfs⟩ := List.forall_mem_cons.mp hlen
    cases fs with
    | nil =>
      rw [List.intercalate_singleton, foldlM_last hr hf hlf]
      apply hempty.imp_right
      intro h hnil
      apply h
      rw [hnil]
    | cons g fs =>
      have hnext : Reader.AtStart ⟨.startField, [], r.fields ++ [f]⟩ := ⟨Or.inr rfl, rfl⟩
      rw [List.intercalate_cons_cons, List.append_assoc, List.foldlM_append,
        foldlM_delimiter hr hf hlf, Option.bind_eq_bind, Option.bind_some,
        ih hnext (List.cons_ne_nil _ _) hfs' hlfs (Or.inl rfl)]
      simp

/-- A line of fields, with its end. -/
def recordLine (d : Dialect) (fs : List (List Char)) : List Char :=
  [d.delimiter].intercalate fs ++ ['\n']

/-- A record that is read as it is written, without quotes. -/
structure Plain (d : Dialect) (fs : List (List Char)) : Prop where
  ne_nil : fs ≠ []
  ne_empty : fs ≠ [[]]
  clean : ∀ f ∈ fs, Clean d f
  short : ∀ f ∈ fs, f.length ≤ d.limit

/-- The line of clean fields has one end. -/
theorem lines_recordLine {fs : List (List Char)} (h : ∀ f ∈ fs, Clean d f) (cs : List Char) :
  lines (recordLine d fs ++ cs) = recordLine d fs :: lines cs
  := by
  have hnl : newline d.delimiter = false := by
    simp [newline, d.delimiter_ne_newline]
  rw [recordLine, List.append_assoc, List.singleton_append, lines_append]
  intro c hc
  rcases Text.mem_intercalate hc with hsep | ⟨f, hf, hcf⟩
  · rw [List.mem_singleton.mp hsep, hnl]
  · apply ((h f hf).1 c hcf).2

/-- A plain record is read as it is written, before what follows it. -/
theorem rows_cons {fs : List (List Char)} (h : Plain d fs) (cs : List Char) :
  rows d {} (lines (recordLine d fs ++ cs)) = (rows d {} (lines cs)).map (fun recs => fs :: recs)
  := by
  have hstart : Reader.AtStart {} := ⟨Or.inl rfl, rfl⟩
  have hline : (recordLine d fs).foldlM (step d) {} = some ⟨.eatCrnl, [], fs⟩ := by
    rw [recordLine, foldlM_record hstart h.ne_nil h.clean h.short (Or.inr h.ne_empty)]
    rfl
  rw [lines_recordLine h.clean, rows, hline, Option.bind_eq_bind, Option.bind_some]
  simp only [endLine, if_true]

/-- Plain records are read as they are written. -/
theorem rows_plain {recs : List (List (List Char))} (h : ∀ fs ∈ recs, Plain d fs) :
  rows d {} (lines (recs.flatMap (recordLine d))) = some recs
  := by
  induction recs with
  | nil => rfl
  | cons fs recs ih =>
    obtain ⟨hfs, hrecs⟩ := List.forall_mem_cons.mp h
    rw [List.flatMap_cons, rows_cons hfs, ih hrecs, Option.map_some]

/-- The quotes of a line are those of its fields. -/
theorem count_recordLine (d : Dialect) (fs : List (List Char)) :
  (recordLine d fs).count d.quote = (fs.map (fun f => f.count d.quote)).sum
  := by
  have hdelim : [d.delimiter].count d.quote = 0 := by
    simp [d.quote_ne_delimiter.symm]
  have hnl : ['\n'].count d.quote = 0 := by
    simp [d.quote_ne_newline.1.symm]
  rw [recordLine, List.count_append, hnl, Nat.add_zero]
  induction fs with
  | nil => rfl
  | cons f fs ih =>
    cases fs with
    | nil => simp
    | cons g fs =>
      rw [List.intercalate_cons_cons, List.count_append, List.count_append, hdelim, ih,
        Nat.add_zero]
      rfl

end

/-! ## What quotes a field takes -/

section

variable (d : Dialect)

/-- The least number of quotes in the text of a field: its own, and one more when it is not
clean. -/
def cost (f : List Char) : ℕ := f.count d.quote + if Clean d f then 0 else 1

/-- The least number of quotes in the text of a record. -/
def recordCost (fs : List (List Char)) : ℕ := (fs.map (cost d)).sum

/-- The least number of quotes that a reader has seen in its record. -/
def Reader.weight (r : Reader) : ℕ :=
  recordCost d r.fields +
    match r.state with
    | .inField => cost d r.field
    | .inQuoted => r.field.count d.quote + 1
    | .quoteInQuoted => r.field.count d.quote + 2
    | _ => 0

/-- The field is empty outside of a field. -/
def Reader.Valid (r : Reader) : Prop :=
  match r.state with
  | .inField => r.field ≠ []
  | .inQuoted => True
  | .quoteInQuoted => True
  | _ => r.field = []

end

section

variable {d : Dialect}

/-- A field takes at most one quote more than it has. -/
theorem cost_le (f : List Char) :
  cost d f ≤ f.count d.quote + 1
  := by
  rw [cost]
  split_ifs
  · omega
  · omega

/-- The fields of a record are counted one by one. -/
theorem recordCost_append (fs gs : List (List Char)) :
  recordCost d (fs ++ gs) = recordCost d fs + recordCost d gs
  := by
  rw [recordCost, List.map_append, List.sum_append, recordCost, recordCost]

/-- The record with one field. -/
theorem recordCost_singleton (f : List Char) :
  recordCost d [f] = cost d f
  := by
  rw [recordCost, List.map_singleton, List.sum_singleton]

/-- A character that goes on with a field. -/
theorem cost_append {f : List Char} {c : Char} (hne : f ≠ []) (hdelim : c ≠ d.delimiter)
    (hnl : newline c = false) :
  cost d (f ++ [c]) = cost d f + [c].count d.quote
  := by
  have hclean : Clean d (f ++ [c]) ↔ Clean d f := by
    rw [Clean, Clean, List.forall_mem_append, List.head?_append_of_ne_nil f hne]
    simp [hdelim, hnl]
  rw [cost, cost, List.count_append, if_congr hclean rfl rfl]
  omega

/-- The empty field takes no quotes. -/
theorem cost_nil :
  cost d [] = 0
  := by
  simp [cost, Clean]

/-- A reader has seen the quotes that its fields take. -/
theorem Reader.Valid.le_weight {r : Reader} (hr : r.Valid) :
  recordCost d r.fields + cost d r.field ≤ r.weight d
  := by
  rcases r with ⟨state, field, fields⟩
  have hcost := cost_le (d := d) field
  apply Nat.add_le_add_left
  cases state with
  | inField => exact Nat.le_refl _
  | inQuoted => exact hcost
  | quoteInQuoted => exact hcost.trans (Nat.le_succ _)
  | startRecord | startField | eatCrnl =>
    obtain rfl : field = [] := hr
    exact cost_nil.le

/-- Saving a field keeps a bound on the quotes that the fields take. -/
theorem saveField_weight {r : Reader} {state : State} {n : ℕ}
    (hstate : state = .startRecord ∨ state = .startField ∨ state = .eatCrnl)
    (h : recordCost d r.fields + cost d r.field ≤ n) :
  (r.saveField state).Valid ∧ (r.saveField state).weight d ≤ n
  := by
  rw [Reader.saveField, Reader.weight, recordCost_append, recordCost_singleton]
  rcases hstate with rfl | rfl | rfl
  · exact ⟨rfl, h⟩
  · exact ⟨rfl, h⟩
  · exact ⟨rfl, h⟩

/-- A reader that adds a character. -/
theorem addChar_eq_some {r r' : Reader} {state : State} {c : Char}
    (h : r.addChar d state c = some r') :
  r' = { r with state, field := r.field ++ [c] }
  := by
  rw [Reader.addChar] at h
  split_ifs at h
  exact (Option.some_inj.mp h).symm

/-- The first character of a field. -/
theorem startField_weight {r r' : Reader} {c : Char} (hfield : r.field = [])
    (h : startField d r c = some r') :
  r'.Valid ∧ r'.weight d ≤ recordCost d r.fields + [c].count d.quote
  := by
  have hseen : recordCost d r.fields + cost d r.field
      ≤ recordCost d r.fields + [c].count d.quote := by
    rw [hfield, cost_nil]
    apply Nat.add_le_add_left (Nat.zero_le _)
  rw [startField] at h
  split_ifs at h with hnl hquote hdelim
  · obtain rfl := Option.some_inj.mp h
    apply saveField_weight (Or.inr (Or.inr rfl)) hseen
  · obtain rfl := Option.some_inj.mp h
    use trivial
    simp [Reader.weight, hfield, hquote]
  · obtain rfl := Option.some_inj.mp h
    apply saveField_weight (Or.inr (Or.inl rfl)) hseen
  · obtain rfl := addChar_eq_some h
    have hclean : Clean d [c] := by
      simp [Clean, hquote, hdelim, hnl]
    use by simp [Reader.Valid]
    simp [Reader.weight, hfield, cost, hclean]

/-- A character adds at most itself to the weight. -/
theorem step_weight {r r' : Reader} {c : Char} (hr : r.Valid) (h : step d r c = some r') :
  r'.Valid ∧ r'.weight d ≤ r.weight d + [c].count d.quote
  := by
  have hseen : recordCost d r.fields + cost d r.field ≤ r.weight d + [c].count d.quote :=
    hr.le_weight.trans (Nat.le_add_right _ _)
  rcases r with ⟨state, field, fields⟩
  cases state with
  | startRecord =>
    rw [step] at h
    dsimp only at h
    split_ifs at h with hnl
    · obtain rfl := Option.some_inj.mp h
      exact ⟨hr, Nat.le_add_right _ _⟩
    · apply startField_weight hr h
  | startField => apply startField_weight hr h
  | inField =>
    rw [step] at h
    dsimp only at h
    split_ifs at h with hnl hdelim
    · obtain rfl := Option.some_inj.mp h
      apply saveField_weight (Or.inr (Or.inr rfl)) hseen
    · obtain rfl := Option.some_inj.mp h
      apply saveField_weight (Or.inr (Or.inl rfl)) hseen
    · obtain rfl := addChar_eq_some h
      have hcost := cost_append hr hdelim (by simpa using hnl)
      use by simp [Reader.Valid]
      simp only [Reader.weight, hcost]
      omega
  | inQuoted =>
    rw [step] at h
    dsimp only at h
    split_ifs at h with hquote
    · obtain rfl := Option.some_inj.mp h
      use trivial
      simp [Reader.weight, hquote]
      omega
    · obtain rfl := addChar_eq_some h
      use trivial
      simp only [Reader.weight, List.count_append]
      omega
  | quoteInQuoted =>
    rw [step] at h
    dsimp only at h
    split_ifs at h with hquote hdelim hnl
    · obtain rfl := addChar_eq_some h
      use trivial
      simp only [Reader.weight, List.count_append]
      omega
    · obtain rfl := Option.some_inj.mp h
      apply saveField_weight (Or.inr (Or.inl rfl)) hseen
    · obtain rfl := Option.some_inj.mp h
      apply saveField_weight (Or.inr (Or.inr rfl)) hseen
    · obtain rfl := addChar_eq_some h
      have hcost := cost_le (d := d) (field ++ [c])
      use by simp [Reader.Valid]
      simp only [Reader.weight, List.count_append] at hcost ⊢
      omega
  | eatCrnl =>
    rw [step] at h
    dsimp only at h
    split_ifs at h with hnl
    obtain rfl := Option.some_inj.mp h
    exact ⟨hr, Nat.le_add_right _ _⟩

/-- The characters of a line add at most their quotes to the weight. -/
theorem foldlM_weight {r r' : Reader} {cs : List Char} (hr : r.Valid)
    (h : cs.foldlM (step d) r = some r') :
  r'.Valid ∧ r'.weight d ≤ r.weight d + cs.count d.quote
  := by
  induction cs generalizing r with
  | nil =>
    obtain rfl := Option.some_inj.mp h
    exact ⟨hr, Nat.le_refl _⟩
  | cons c cs ih =>
    rw [List.foldlM_cons] at h
    obtain ⟨mid, hmid, hrest⟩ := Option.bind_eq_some_iff.mp h
    obtain ⟨hvalid, hweight⟩ := step_weight hr hmid
    obtain ⟨hvalid', hweight'⟩ := ih hvalid hrest
    have hcount : (c :: cs).count d.quote = [c].count d.quote + cs.count d.quote := by
      rw [← List.count_append, List.singleton_append]
    exact ⟨hvalid', by omega⟩

/-- The end of a line adds nothing to the weight. -/
theorem endLine_weight {r : Reader} (hr : r.Valid) :
  (endLine r).Valid ∧ (endLine r).weight d ≤ r.weight d
  := by
  have hseen : recordCost d r.fields + cost d r.field ≤ r.weight d := hr.le_weight
  rcases r with ⟨state, field, fields⟩
  cases state with
  | startField | inField | quoteInQuoted => apply saveField_weight (Or.inl rfl) hseen
  | startRecord | inQuoted | eatCrnl => exact ⟨hr, Nat.le_refl _⟩

/-- The records of lines take no more quotes than the lines have. -/
theorem rows_cost {r : Reader} {ls : List (List Char)} {recs : List (List (List Char))}
    (hr : r.Valid) (h : rows d r ls = some recs) :
  (recs.map (recordCost d)).sum ≤ r.weight d + ls.flatten.count d.quote
  := by
  induction ls generalizing r recs with
  | nil =>
    rw [rows] at h
    split_ifs at h with hopen
    · obtain rfl := Option.some_inj.mp h
      rw [List.map_singleton, List.sum_singleton, recordCost_append, recordCost_singleton]
      apply hr.le_weight.trans (Nat.le_add_right _ _)
    · obtain rfl := Option.some_inj.mp h
      exact Nat.zero_le _
  | cons line ls ih =>
    rw [rows] at h
    obtain ⟨mid, hmid, hrest⟩ := Option.bind_eq_some_iff.mp h
    obtain ⟨hvalid, hweight⟩ := foldlM_weight hr hmid
    obtain ⟨hvalid', hweight'⟩ := endLine_weight (d := d) hvalid
    rw [List.flatten_cons, List.count_append]
    split_ifs at hrest with hdone
    · obtain ⟨recs', hrecs', rfl⟩ := Option.map_eq_some_iff.mp hrest
      have hrecs := ih (r := {}) rfl hrecs'
      have hzero : Reader.weight d {} = 0 := rfl
      have hfields : recordCost d (endLine mid).fields ≤ (endLine mid).weight d := by
        apply Nat.le_add_right
      rw [List.map_cons, List.sum_cons]
      omega
    · have hrecs := ih hvalid' hrest
      omega

end

end Csv
