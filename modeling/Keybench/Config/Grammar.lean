import Keybench.Config.Load
import Keybench.Lib.Keyed

/-!
# The grammar of config files

The grammar speaks of a text of any length: a line is an item that selects a section or adds an
entry, or nothing, and the sections of a text are the names it selects, in the order in which
they first appear after `bench`, each with the entries that were added while it was selected.

`cfgLoad` reads by the grammar exactly the texts whose section names have at most 63 bytes, as
long as reading a line in pieces does not change its items (`cfgLoad_grammar`).  A line of at
most 1023 bytes is read in one piece (`linePieces_of_short`).
-/

namespace Keybench

/-! ## The grammar -/

/-- What a line says. -/
inductive CfgItem
  /-- Go on with the section of that name. -/
  | select (name : Bytes)
  /-- An entry of the current section. -/
  | entry (key val : Bytes)
deriving DecidableEq, Repr

/-- The signs that start a comment. -/
def isCommentSign (c : UInt8) : Bool := c = chr '#' || c = chr ';'

/-- The part of a line before its comment: all bytes up to the first comment sign that is at
the start or follows a space. -/
def uncommented (line : Bytes) : Bytes :=
  ((List.zip (true :: line.map isspace) line).takeWhile
    (fun p => !(p.1 && isCommentSign p.2))).map Prod.snd

/-- The item of a line. -/
def parseLine (line : Bytes) : Option CfgItem :=
  match Text.trimBy isspace (uncommented line) with
  | [] => none
  | c :: s =>
    if c = chr '[' then
      if chr ']' ∈ s then
        some (.select (Text.trimBy isspace (s.takeWhile (fun x => x ≠ chr ']'))))
      else none
    else if chr '=' ∈ c :: s then
      some (.entry (Text.trimBy isspace ((c :: s).takeWhile (fun x => x ≠ chr '=')))
        (Text.trimBy isspace ((c :: s).dropWhile (fun x => x ≠ chr '=')).tail))
    else none

/-- The items of a text. -/
def cfgItems (text : Bytes) : List CfgItem := (text.splitOn (chr '\n')).filterMap parseLine

/-- The section an item selects. -/
def CfgItem.selected : CfgItem → Option Bytes
  | .select name => some name
  | .entry _ _ => none

/-- The current section after some items. -/
def currentAfter (cur : Bytes) (items : List CfgItem) : Bytes :=
  ((items.filterMap CfgItem.selected).getLast?).getD cur

/-- The entries of a list of items, each with its section. -/
def placed (cur : Bytes) : List CfgItem → List (Bytes × Bytes × Bytes)
  | [] => []
  | .select name :: items => placed name items
  | .entry k v :: items => (cur, k, v) :: placed cur items

/-- The names of the sections, in the order in which they first appear. -/
def sectionNames (items : List CfgItem) : List Bytes :=
  (benchName :: items.filterMap CfgItem.selected).eraseDups

/-- The entries of a section. -/
def entriesOf (items : List CfgItem) (name : Bytes) : List (Bytes × Bytes) :=
  (placed benchName items).filterMap (fun e => if e.1 = name then some e.2 else none)

/-- The sections of a list of items. -/
def sectionsOf (items : List CfgItem) : CfgFile :=
  (sectionNames items).map (fun name => ⟨name, entriesOf items name⟩)

/-- The text is read by the grammar, and the sections are found by name with all values of a
key in file order. -/
structure ReadByGrammar (text : Bytes) : Prop where
  /-- The sections are those of the grammar. -/
  sections : cfgLoad text = sectionsOf (cfgItems text)
  /-- Every section is found by its full name, with the values of each key in file order. -/
  found : ∀ name ∈ sectionNames (cfgItems text), ∃ o, cfgSection (cfgLoad text) name = some o
    ∧ o.name = name
    ∧ ∀ key max, kvOptAll (some o) key max
        = ((entriesOf (cfgItems text) name).filterMap
            (fun e => if e.1 = key then some e.2 else none)).take max

/-- The section names of the text fit the name buffer. -/
def NamesFit (text : Bytes) : Prop :=
  ∀ name ∈ (cfgItems text).filterMap CfgItem.selected, name.length ≤ 63

/-- The pieces in which a line is read have the item of the line. -/
def LinePieces (line : Bytes) : Prop :=
  (cfgLines line).filterMap parseLine = (parseLine line).toList

/-! ## Lines -/

/-- Cutting the comment off leaves what the grammar leaves. -/
theorem cutComment_eq (start : Bool) (line : Bytes) :
  cutComment start line
    = ((List.zip (start :: line.map isspace) line).takeWhile
        (fun p => !(p.1 && isCommentSign p.2))).map Prod.snd
  := by
  induction line generalizing start with
  | nil => rfl
  | cons c l ih =>
    rw [List.map_cons, List.zip_cons_cons, List.takeWhile_cons, cutComment, ih]
    cases start with
    | true =>
      cases hc : isCommentSign c with
      | true =>
        rw [isCommentSign] at hc
        simp [hc]
      | false =>
        rw [isCommentSign] at hc
        simp [hc]
    | false => simp

/-- What an item does to the sections. -/
def applyItem (st : CfgState) : CfgItem → CfgState
  | .select name => fileSection st.1 name
  | .entry k v => (st.1.modify st.2 (fun o => sectionAdd o k v), st.2)

/-- A turn of the loop does what the item of the line says. -/
theorem cfgLine_eq (st : CfgState) (line : Bytes) :
  cfgLine st line = ((parseLine (cString line)).map (applyItem st)).getD st
  := by
  have hcut : trim (cutComment true (cString line))
      = Text.trimBy isspace (uncommented (cString line)) := by
    rw [cutComment_eq, uncommented, trim]
  rw [cfgLine, hcut, parseLine]
  cases Text.trimBy isspace (uncommented (cString line)) with
  | nil => rfl
  | cons c s =>
    have hne : chr '[' ≠ chr ']' := by decide
    simp only [reduceCtorEq, if_false, List.head?_cons, Option.some.injEq]
    rw [Text.splitFirst_eq, Text.splitFirst_eq]
    by_cases hc : c = chr '['
    · subst hc
      by_cases hmem : chr ']' ∈ s
      · simp [hmem, hne, applyItem, trim]
      · simp [hmem, hne.symm]
    · by_cases hmem : chr '=' ∈ c :: s
      · simp only [hc, hmem, if_true, if_false, Option.map_some, Option.getD_some, applyItem, trim]
      · simp only [hc, hmem, if_false, Option.map_none, Option.getD_none]

/-- The newline at the end of a line does not matter. -/
theorem parseLine_newline (line : Bytes) :
  parseLine (line ++ [chr '\n']) = parseLine line
  := by
  have hspace : ∀ x ∈ [chr '\n'], isspace x = true := List.forall_mem_singleton.mpr rfl
  have htrim : Text.trimBy isspace (uncommented (line ++ [chr '\n']))
      = Text.trimBy isspace (uncommented line) := by
    have hcut := cutComment_append_singleton (show chr '\n' ≠ chr '#' by decide)
      (show chr '\n' ≠ chr ';' by decide) true line
    rw [cutComment_eq, cutComment_eq] at hcut
    rcases hcut with hcut | hcut
    · rw [uncommented, hcut, uncommented]
    · rw [uncommented, hcut, Text.trimBy_append_of_all hspace, uncommented]
  rw [parseLine, htrim, parseLine]

/-- The blank line says nothing. -/
theorem parseLine_nil :
  parseLine [] = none
  := rfl

/-- Reading a text is applying the items of its pieces. -/
theorem cfgLoad_eq (text : Bytes) :
  cfgLoad text
    = (((cfgLines text).filterMap (fun line => parseLine (cString line))).foldl applyItem
        (fileSection [] benchName)).1
  := by
  rw [List.foldl_filterMap, cfgLoad]
  congr 2
  funext st line
  rw [cfgLine_eq]
  cases parseLine (cString line) with
  | none => rfl
  | some item => rfl

/-- The items of the pieces of a text are the items of the pieces of its lines. -/
theorem pieces_of_lines (text : Bytes) :
  (cfgLines text).filterMap (fun line => parseLine (cString line))
    = (text.splitOn (chr '\n')).flatMap
        (fun line => (cfgLines line).filterMap (fun line => parseLine (cString line)))
  := by
  apply Text.filterMap_readLines
  · rfl
  · intro l
    by_cases h0 : 0 ∈ l
    · rw [cString_append_of_mem h0]
    · rw [cString_append h0, cString_eq_self h0]
      apply parseLine_newline
  · decide

/-- A line that fits the buffer is read in one piece. -/
theorem linePieces_of_short {line : Bytes} (hline : chr '\n' ∉ line) (hlen : line.length ≤ lineMax) :
  LinePieces line
  := by
  rw [LinePieces, cfgLines, Text.readLines_short hline (by decide) hlen]
  split_ifs with hnil
  · rw [hnil]
    rfl
  · cases h : parseLine line with
    | none => simp [h]
    | some item => simp [h]

/-- The pieces of a text without a NUL have none. -/
theorem zero_notMem_piece {text piece : Bytes} (h : 0 ∉ text) (hp : piece ∈ cfgLines text) :
  0 ∉ piece
  := by
  intro h0
  apply h
  rw [← Text.readLines_flatten (chr '\n') (show 0 < lineMax by decide) text.length text le_rfl]
  apply List.mem_flatten_of_mem hp h0

/-- The items the program reads are those of the grammar when every line has the items of its
pieces. -/
theorem pieces_eq_items {text : Bytes} (h0 : 0 ∉ text)
    (hwhole : ∀ line ∈ text.splitOn (chr '\n'), LinePieces line) :
  (cfgLines text).filterMap (fun line => parseLine (cString line)) = cfgItems text
  := by
  have hline : ∀ line ∈ text.splitOn (chr '\n'),
      (cfgLines line).filterMap (fun line => parseLine (cString line))
        = (parseLine line).toList := by
    intro line hmem
    have hline0 : 0 ∉ line := fun h => h0 ((Text.mem_splitOn hmem).2 0 h)
    rw [← hwhole line hmem]
    apply List.filterMap_congr
    intro piece hp
    rw [cString_eq_self (zero_notMem_piece hline0 hp)]
  rw [pieces_of_lines, cfgItems, List.filterMap_eq_flatMap_toList]
  apply List.flatMap_congr hline

/-! ## Sections -/

/-- The section of that name is current after it was selected. -/
theorem currentAfter_select (cur name : Bytes) (items : List CfgItem) :
  currentAfter cur (items ++ [.select name]) = name
  := by
  simp [currentAfter, CfgItem.selected]

/-- An entry leaves the current section as it is. -/
theorem currentAfter_entry (cur k v : Bytes) (items : List CfgItem) :
  currentAfter cur (items ++ [.entry k v]) = currentAfter cur items
  := by
  simp [currentAfter, CfgItem.selected]

/-- The entries of items that are followed by others. -/
theorem placed_append (cur : Bytes) (items items' : List CfgItem) :
  placed cur (items ++ items') = placed cur items ++ placed (currentAfter cur items) items'
  := by
  induction items generalizing cur with
  | nil => rfl
  | cons item items ih =>
    cases item with
    | select name =>
      have hcur : currentAfter cur (.select name :: items) = currentAfter name items := by
        rw [currentAfter, currentAfter, List.filterMap_cons, CfgItem.selected,
          List.getLast?_cons]
        rfl
      rw [List.cons_append, placed, placed, ih, hcur]
    | entry k v =>
      have hcur : currentAfter cur (.entry k v :: items) = currentAfter cur items := rfl
      rw [List.cons_append, placed, placed, ih, hcur, List.cons_append]

/-- The current section is one of the sections. -/
theorem currentAfter_mem (items : List CfgItem) :
  currentAfter benchName items ∈ sectionNames items
  := by
  rw [sectionNames, List.mem_eraseDups, currentAfter]
  cases h : (items.filterMap CfgItem.selected).getLast? with
  | none => simp
  | some name =>
    have hmem := List.mem_of_getLast? h
    simp [hmem]

/-- Entries are placed in the sections. -/
theorem placed_mem {items : List CfgItem} {e : Bytes × Bytes × Bytes}
    (h : e ∈ placed benchName items) :
  e.1 ∈ sectionNames items
  := by
  induction items using List.reverseRecOn with
  | nil => simp [placed] at h
  | append_singleton items item ih =>
    have hold : ∀ n, n ∈ sectionNames items → n ∈ sectionNames (items ++ [item]) := by
      intro n hn
      rw [sectionNames, List.mem_eraseDups] at hn ⊢
      rw [List.filterMap_append, ← List.cons_append]
      apply List.mem_append_left _ hn
    rw [placed_append, List.mem_append] at h
    rcases h with h | h
    · apply hold _ (ih h)
    · cases item with
      | select name => simp [placed] at h
      | entry k v =>
        rw [placed, placed, List.mem_singleton] at h
        rw [h]
        apply hold _ (currentAfter_mem items)

/-- The name of a new section comes last. -/
theorem sectionNames_select (items : List CfgItem) (name : Bytes) :
  sectionNames (items ++ [.select name])
    = if name ∈ sectionNames items then sectionNames items else sectionNames items ++ [name]
  := by
  rw [sectionNames, List.filterMap_append, ← List.cons_append]
  simp only [List.filterMap_cons, List.filterMap_nil, CfgItem.selected]
  rw [Keyed.eraseDups_concat, sectionNames]
  simp only [List.mem_eraseDups]

/-- An entry adds no section. -/
theorem sectionNames_entry (items : List CfgItem) (k v : Bytes) :
  sectionNames (items ++ [.entry k v]) = sectionNames items
  := by
  rw [sectionNames, List.filterMap_append, sectionNames]
  simp only [List.filterMap_cons, List.filterMap_nil, CfgItem.selected, List.append_nil]

/-- Selecting a section adds no entry. -/
theorem entriesOf_select (items : List CfgItem) (name n : Bytes) :
  entriesOf (items ++ [.select name]) n = entriesOf items n
  := by
  rw [entriesOf, placed_append]
  simp [placed, entriesOf]

/-- An entry is added to the current section only. -/
theorem entriesOf_entry (items : List CfgItem) (k v n : Bytes) :
  entriesOf (items ++ [.entry k v]) n
    = entriesOf items n ++ if currentAfter benchName items = n then [(k, v)] else []
  := by
  rw [entriesOf, placed_append, List.filterMap_append, placed, placed]
  split_ifs with h
  · simp [h, entriesOf]
  · simp [h, entriesOf]

/-- A section that was not selected has no entries. -/
theorem entriesOf_eq_nil {items : List CfgItem} {n : Bytes} (h : n ∉ sectionNames items) :
  entriesOf items n = []
  := by
  apply List.filterMap_eq_nil_iff.mpr
  intro e he
  have hmem := placed_mem he
  have hne : e.1 ≠ n := fun heq => h (heq ▸ hmem)
  simp [hne]

/-- The state of the loop is that of the grammar: the sections of the items read so far, and
the position of the current one. -/
structure Tracks (items : List CfgItem) (st : CfgState) : Prop where
  /-- The sections. -/
  sections : st.1 = sectionsOf items
  /-- The current one. -/
  current : (sectionNames items)[st.2]? = some (currentAfter benchName items)

/-- `bench` comes first. -/
theorem tracks_nil :
  Tracks [] (fileSection [] benchName)
  := by
  constructor
  · rfl
  · rfl

/-- Selecting a section whose name fits the buffer. -/
theorem Tracks.select {items : List CfgItem} {st : CfgState} (h : Tracks items st) {name : Bytes}
    (hname : name.length ≤ 63) :
  Tracks (items ++ [.select name]) (applyItem st (.select name))
  := by
  have hentries : ∀ n, entriesOf (items ++ [.select name]) n = entriesOf items n :=
    entriesOf_select items name
  rw [applyItem, h.sections, fileSection]
  cases hidx : (sectionsOf items).findIdx? (fun o => o.name = name) with
  | some i =>
    rw [sectionsOf, List.findIdx?_map, List.findIdx?_eq_some_iff_getElem] at hidx
    obtain ⟨hlt, hi, -⟩ := hidx
    have hi' : (sectionNames items)[i] = name := by simpa using hi
    have hmem : name ∈ sectionNames items := hi' ▸ List.getElem_mem hlt
    have hnames : sectionNames (items ++ [.select name]) = sectionNames items := by
      rw [sectionNames_select, if_pos hmem]
    constructor
    · rw [sectionsOf, sectionsOf, hnames]
      simp only [hentries]
    · rw [hnames, currentAfter_select, List.getElem?_eq_getElem hlt, hi']
  | none =>
    rw [sectionsOf, List.findIdx?_map, List.findIdx?_eq_none_iff] at hidx
    have hmem : name ∉ sectionNames items := by
      intro hmem
      have hne := hidx name hmem
      simp at hne
    have hnames : sectionNames (items ++ [.select name]) = sectionNames items ++ [name] := by
      rw [sectionNames_select, if_neg hmem]
    constructor
    · have hnew : sectionNew name = ⟨name, entriesOf items name⟩ := by
        rw [entriesOf_eq_nil hmem, sectionNew, snprintfStr, List.take_of_length_le hname]
      rw [hnew, sectionsOf, sectionsOf, hnames, List.map_append]
      simp only [hentries]
      rfl
    · rw [hnames, currentAfter_select, sectionsOf, List.length_map]
      simp

/-- Adding an entry. -/
theorem Tracks.entry {items : List CfgItem} {st : CfgState} (h : Tracks items st) (k v : Bytes) :
  Tracks (items ++ [.entry k v]) (applyItem st (.entry k v))
  := by
  constructor
  · have hnodup : (sectionNames items).Nodup := Keyed.nodup_eraseDups _
    rw [applyItem, h.sections, sectionsOf, sectionsOf, sectionNames_entry]
    show List.modify _ _ _ = _
    rw [Keyed.modify_map _ _ hnodup h.current]
    apply List.map_congr_left
    intro n _
    rw [entriesOf_entry]
    by_cases hn : n = currentAfter benchName items
    · simp [hn, sectionAdd]
    · simp [hn, Ne.symm hn]
  · rw [sectionNames_entry, currentAfter_entry]
    apply h.current

/-- Reading items whose names fit the buffer builds the sections of the grammar. -/
theorem tracks_foldl {items : List CfgItem}
    (hnames : ∀ name ∈ items.filterMap CfgItem.selected, name.length ≤ 63) :
  Tracks items (items.foldl applyItem (fileSection [] benchName))
  := by
  induction items using List.reverseRecOn with
  | nil => exact tracks_nil
  | append_singleton items item ih =>
    rw [List.filterMap_append] at hnames
    have hitems := ih (fun n hn => hnames n (List.mem_append_left _ hn))
    rw [List.foldl_append, List.foldl_cons, List.foldl_nil]
    cases item with
    | select name =>
      apply hitems.select
      apply hnames name
      simp [CfgItem.selected]
    | entry k v => apply hitems.entry

/-- No stored name is longer than the buffer. -/
theorem name_length_of_mem_foldl (items : List CfgItem) :
  ∀ o ∈ (items.foldl applyItem (fileSection [] benchName)).1, o.name.length ≤ 63
  := by
  induction items using List.reverseRecOn with
  | nil => decide
  | append_singleton items item ih =>
    rw [List.foldl_append, List.foldl_cons, List.foldl_nil]
    cases item with
    | select name =>
      rw [applyItem, fileSection]
      split
      · apply ih
      · intro o ho
        rcases List.mem_append.mp ho with ho | ho
        · apply ih o ho
        · rw [List.mem_singleton] at ho
          rw [ho]
          apply length_sectionNew_name
    | entry k v =>
      intro o ho
      obtain ⟨i, hi⟩ := List.mem_iff_getElem?.mp ho
      rw [applyItem, List.getElem?_modify, Option.map_eq_map, Option.map_eq_some_iff] at hi
      obtain ⟨o', ho', rfl⟩ := hi
      have hname := ih o' (List.mem_of_getElem? ho')
      split
      · exact hname
      · exact hname

/-- A section is found by its name. -/
theorem cfgSection_sectionsOf {items : List CfgItem} {name : Bytes}
    (h : name ∈ sectionNames items) :
  cfgSection (sectionsOf items) name = some ⟨name, entriesOf items name⟩
  := by
  have hpred : ((fun o : KvOptions => decide (o.name = name))
      ∘ fun n => (⟨n, entriesOf items n⟩ : KvOptions)) = fun n => decide (n = name) := rfl
  have hfind : (sectionNames items).find? (fun n => decide (n = name)) = some name := by
    cases hf : (sectionNames items).find? (fun n => decide (n = name)) with
    | none =>
      rw [List.find?_eq_none] at hf
      have hne := hf name h
      simp at hne
    | some n =>
      have hn := List.find?_some hf
      rw [decide_eq_true_eq] at hn
      rw [hn]
  rw [cfgSection, sectionsOf, List.find?_map, hpred, hfind]
  rfl

/-! ## Reading by the grammar -/

/-- A text whose lines are read whole, with names that fit, is read by the grammar. -/
theorem readByGrammar_of_fit {text : Bytes} (h0 : 0 ∉ text)
    (hwhole : ∀ line ∈ text.splitOn (chr '\n'), LinePieces line) (hnames : NamesFit text) :
  ReadByGrammar text
  := by
  have hsections : cfgLoad text = sectionsOf (cfgItems text) := by
    rw [cfgLoad_eq, pieces_eq_items h0 hwhole]
    apply (tracks_foldl hnames).sections
  constructor
  · apply hsections
  · intro name hname
    use ⟨name, entriesOf (cfgItems text) name⟩
    and_intros
    · rw [hsections, cfgSection_sectionsOf hname]
    · rfl
    · intro key max
      rw [kvOptAll, optAllLoop_eq]

/-- A text that is read by the grammar has names that fit. -/
theorem namesFit_of_readByGrammar {text : Bytes} (h : ReadByGrammar text) :
  NamesFit text
  := by
  intro name hname
  have hmem : name ∈ sectionNames (cfgItems text) := by
    rw [sectionNames, List.mem_eraseDups]
    apply List.mem_cons_of_mem _ hname
  have ho : ⟨name, entriesOf (cfgItems text) name⟩ ∈ cfgLoad text := by
    rw [h.sections]
    apply List.mem_map_of_mem hmem
  rw [cfgLoad_eq] at ho
  apply name_length_of_mem_foldl _ _ ho

/-- Reading by the grammar is having names that fit, for a text in which each line has the
items of its pieces; names that fit are needed for any text, and a line that fits the buffer
has the items of its pieces. -/
theorem cfgLoad_grammar (text : Bytes) (h0 : 0 ∉ text) :
  ((∀ line ∈ text.splitOn (chr '\n'), LinePieces line) → (ReadByGrammar text ↔ NamesFit text))
    ∧ (ReadByGrammar text → NamesFit text)
    ∧ ∀ line ∈ text.splitOn (chr '\n'), line.length ≤ lineMax → LinePieces line
  := by
  and_intros
  · intro hwhole
    constructor
    · apply namesFit_of_readByGrammar
    · apply readByGrammar_of_fit h0 hwhole
  · apply namesFit_of_readByGrammar
  · intro line hline hlen
    apply linePieces_of_short (Text.mem_splitOn hline).1 hlen

/-- A section that is selected twice, read by the grammar. -/
theorem cfgLoad_grammar_example :
  ReadByGrammar (ascii "[a]\nk=v\n[b]\n[a]\nk = w ; x\n")
  := by
  obtain ⟨hread, -, hshort⟩ :=
    cfgLoad_grammar (ascii "[a]\nk=v\n[b]\n[a]\nk = w ; x\n") (by decide)
  have hlen : ∀ line ∈ (ascii "[a]\nk=v\n[b]\n[a]\nk = w ; x\n").splitOn (chr '\n'),
      line.length ≤ lineMax := by decide
  apply (hread (fun line hline => hshort line hline (hlen line hline))).mpr
  rw [NamesFit]
  decide

/-- A section name of 64 bytes is cut. -/
theorem cfgLoad_not_grammar :
  ¬ ∀ text : Bytes, 0 ∉ text → ReadByGrammar text
  := by
  intro h
  have hread := h (chr '[' :: List.replicate 64 (chr 'a') ++ [chr ']']) (by decide)
  have hfit := namesFit_of_readByGrammar hread (List.replicate 64 (chr 'a')) (by decide)
  revert hfit
  decide

end Keybench
