import Keybench.Config.Entries
import Keybench.Run.Args

/-!
# Replay files

`save_config` writes a run as a config file: a header, the `[bench]` section with the knobs, and
the other sections of the config file the run was started with.  When its lines fit the line
buffer and hold no newline, reading the file back is reading its lines one by one
(`cfgLoad_saveConfig`).
-/

namespace Keybench

/-- `KEYBENCH_VERSION`. -/
def keybenchVersion : Bytes := ascii "0.1.1"

/-- What `save_config` is given besides the config file. -/
structure SaveArgs where
  /-- `path`. -/
  path : Bytes
  /-- `cfg`. -/
  cfg : RunConfig
  /-- `engines_str`. -/
  engines : Bytes
  /-- `threads_list`. -/
  threads : Bytes
  /-- `repeat`. -/
  repeats : Int32
  /-- `report_arg`. -/
  report : Option Bytes
  /-- `report_dir`. -/
  reportDir : Option Bytes
  /-- `files`. -/
  files : List Bytes

/-- The first line. -/
def headerLine (a : SaveArgs) : Bytes :=
  ascii "keybench " ++ keybenchVersion
    ++ ascii " replay file - reproduce with:  keybench --config " ++ a.path

/-- The lines before the `[bench]` section. -/
def headerLines (a : SaveArgs) : List Bytes := [headerLine a, []]

/-- The formats of the knobs, and what each prints after its equals sign, if it is printed. -/
def knobTable (a : SaveArgs) : List (Bytes × Option Bytes) :=
  [(ascii "backend = ", some a.engines),
    (ascii "threads = ", some a.threads),
    (ascii "seed_threads = ",
      if 0 < a.cfg.seedThreads then some (fmtInt a.cfg.seedThreads.toInt) else none),
    (ascii "seed_once = ", if a.cfg.seedOnce ≠ 0 then some (ascii "1") else none),
    (ascii "pin = ", if a.cfg.pin ≠ 0 then some (ascii "1") else none),
    (ascii "secs = ", if a.cfg.secs.Positive then some (fmtG a.cfg.secs) else none),
    (ascii "ops  = ", if a.cfg.secs.Positive then none else some (fmtInt a.cfg.ops)),
    (ascii "users  = ", some (fmtInt a.cfg.users)),
    (ascii "items  = ", some (fmtInt a.cfg.items)),
    (ascii "seed   = ", some (fmtNat a.cfg.seed.toNat)),
    (ascii "repeat = ", some (fmtInt a.repeats.toInt)),
    (ascii "data_dir = ", a.cfg.dataDir.filter (fun dir => dir ≠ [])),
    (ascii "report_dir = ", a.reportDir),
    (ascii "report = ", if a.reportDir.isSome then none else a.report)]

/-- The rows of a table that are printed. -/
def printed {κ : Type} (rows : List (κ × Option Bytes)) : List (κ × Bytes) :=
  rows.filterMap (fun row => row.2.map (fun v => (row.1, v)))

/-- The formats that are printed for the knobs and the workloads, with what they print. -/
def knobFormats (a : SaveArgs) : List (Bytes × Bytes) :=
  printed (knobTable a) ++ a.files.map (fun path => (ascii "workload = ", path))

/-- The lines of the knobs. -/
def knobLines (a : SaveArgs) : List Bytes := (knobFormats a).map (fun f => f.1 ++ f.2)

/-- The lines of a section other than `[bench]`. -/
def sectionLines (o : KvOptions) : List Bytes :=
  [] :: (chr '[' :: o.name ++ [chr ']']) :: o.kv.map (fun e => e.1 ++ ascii " = " ++ e.2)

/-- The sections other than `[bench]`. -/
def otherSections (c : CfgFile) : List KvOptions := c.filter (fun o => o.name ≠ benchName)

/-- The lines that `save_config` writes. -/
def saveLines (a : SaveArgs) (conf : Option CfgFile) : List Bytes :=
  headerLines a ++ ascii "[bench]" :: knobLines a
    ++ (otherSections (conf.getD [])).flatMap sectionLines

/-- `save_config`: the contents of the file. -/
def saveConfig (a : SaveArgs) (conf : Option CfgFile) : Bytes :=
  (saveLines a conf).flatMap (fun line => line ++ [chr '\n'])

/-- A line that is on one line and fits the line buffer. -/
structure FitLine (line : Bytes) : Prop where
  /-- The line holds no newline. -/
  text : StoredText line
  /-- The line fits. -/
  fits : line.length ≤ lineMax

/-- The items of the pieces in which lines are read. -/
def pieceItems (lines : List Bytes) : List CfgItem :=
  lines.flatMap (fun line => (cfgLines line).filterMap parseLine)

/-- Reading a replay file is applying the items of the pieces of its lines. -/
theorem cfgLoad_saveConfig_pieces {a : SaveArgs} {conf : Option CfgFile}
    (h : ∀ line ∈ saveLines a conf, StoredText line) :
  cfgLoad (saveConfig a conf)
    = ((pieceItems (saveLines a conf)).foldl applyItem (fileSection [] benchName)).1
  := by
  have hsplit : (saveConfig a conf).splitOn (chr '\n') = saveLines a conf ++ [[]] := by
    rw [saveConfig, Text.splitOn_unlines (fun line hline => (h line hline).1)]
  have hlast : (cfgLines []).filterMap (fun piece => parseLine (cString piece)) = [] := rfl
  have hpieces : (saveLines a conf).flatMap
      (fun line => (cfgLines line).filterMap (fun piece => parseLine (cString piece)))
      = pieceItems (saveLines a conf) := by
    apply List.flatMap_congr
    intro line hline
    apply List.filterMap_congr
    intro piece hpiece
    rw [cString_eq_self (zero_notMem_piece (h line hline).2 hpiece)]
  rw [cfgLoad_eq, pieces_of_lines, hsplit, List.flatMap_append, List.flatMap_singleton, hlast,
    List.append_nil, hpieces]

/-- Lines that fit are their own pieces. -/
theorem pieceItems_of_fit {lines : List Bytes} (h : ∀ line ∈ lines, FitLine line) :
  pieceItems lines = lines.filterMap parseLine
  := by
  rw [pieceItems, List.filterMap_eq_flatMap_toList]
  apply List.flatMap_congr
  intro line hline
  apply linePieces_of_short (h line hline).text.1 (h line hline).fits

/-- Reading a replay file is applying the items of its lines. -/
theorem cfgLoad_saveConfig {a : SaveArgs} {conf : Option CfgFile}
    (h : ∀ line ∈ saveLines a conf, FitLine line) :
  cfgLoad (saveConfig a conf)
    = (((saveLines a conf).filterMap parseLine).foldl applyItem (fileSection [] benchName)).1
  := by
  rw [cfgLoad_saveConfig_pieces (fun line hline => (h line hline).text), pieceItems_of_fit h]

/-! ## The items of the lines -/

/-- A line that starts with a letter gives at most an entry, whose key starts with it. -/
theorem parseLine_letter {c : UInt8} (hspace : isspace c = false) (hsign : isCommentSign c = false)
    (hopen : c ≠ chr '[') (hequals : c ≠ chr '=') (line : Bytes) :
  parseLine (c :: line) = none ∨ ∃ k v, parseLine (c :: line) = some (.entry (c :: k) v)
  := by
  have hcut : cutComment true (c :: line) = [] ++ c :: cutComment (isspace c) line := by
    rw [isCommentSign] at hsign
    rw [cutComment, if_neg (by simp [hsign]), List.nil_append]
  rw [parseLine, uncommented_eq, hcut, Text.trimBy_append_cons hspace]
  simp only [List.dropWhile_nil, List.nil_append, hopen, if_false]
  split_ifs with hmem
  · right
    have htake : ∀ t : Bytes, (c :: t).takeWhile (fun x => x ≠ chr '=')
        = [] ++ c :: t.takeWhile (fun x => x ≠ chr '=') := by
      intro t
      simp [hequals]
    rw [htake, Text.trimBy_append_cons hspace]
    exact ⟨_, _, rfl⟩
  · left
    rfl

/-- The name a section line gives back. -/
def nameRead (o : KvOptions) : Bytes := o.name.rdropWhile isspace

/-- The entries that are read back. -/
def entriesRead (o : KvOptions) : List (Bytes × Bytes) := o.kv.map (fun e => (e.1, valueRead e.2))

/-- The items of the lines of a section. -/
def sectionItems (o : KvOptions) : List CfgItem :=
  .select (nameRead o) :: (entriesRead o).map (fun e => .entry e.1 e.2)

/-- The lines of a section give its items. -/
theorem filterMap_sectionLines {o : KvOptions} (h : StoredSection o) :
  (sectionLines o).filterMap parseLine = sectionItems o
  := by
  have hentries : (o.kv.map (fun e => e.1 ++ ascii " = " ++ e.2)).filterMap parseLine
      = (entriesRead o).map (fun e => .entry e.1 e.2) := by
    rw [List.filterMap_map, entriesRead, List.map_map, ← List.filterMap_eq_map]
    apply List.filterMap_congr
    intro e he
    apply parseLine_written (h.entries e he)
  rw [sectionLines, List.filterMap_cons, parseLine_nil, List.filterMap_cons,
    parseLine_header h.name, hentries, sectionItems, nameRead]

/-- The entries of sections that follow other items. -/
theorem entriesOf_sections (items : List CfgItem) (sections : List KvOptions) (name : Bytes) :
  entriesOf (items ++ sections.flatMap sectionItems) name
    = entriesOf items name
      ++ (sections.filter (fun o => nameRead o = name)).flatMap entriesRead
  := by
  induction sections using List.reverseRecOn with
  | nil => simp
  | append_singleton sections o ih =>
    have hplaced : ∀ (cur : Bytes) (es : List (Bytes × Bytes)),
        placed cur (es.map (fun e => CfgItem.entry e.1 e.2)) = es.map (fun e => (cur, e)) := by
      intro cur es
      induction es with
      | nil => rfl
      | cons e es ih => rw [List.map_cons, placed, ih, List.map_cons]
    have hlast : ∀ items : List CfgItem, entriesOf (items ++ sectionItems o) name
        = entriesOf items name ++ if nameRead o = name then entriesRead o else [] := by
      intro items
      rw [entriesOf, placed_append, List.filterMap_append, sectionItems, placed, hplaced,
        List.filterMap_map, entriesOf]
      congr 1
      split_ifs with hname
      · rw [List.filterMap_congr (g := some)]
        · apply List.filterMap_some
        · intro e _
          simp [hname]
      · apply List.filterMap_eq_nil_iff.mpr
        intro e _
        simp [hname]
    rw [List.flatMap_append, List.flatMap_singleton, ← List.append_assoc, hlast, ih,
      List.append_assoc, List.filter_append, List.flatMap_append]
    congr 2
    by_cases hname : nameRead o = name
    · simp [hname]
    · simp [hname]

/-- The sections that items select. -/
theorem selected_sections (sections : List KvOptions) :
  (sections.flatMap sectionItems).filterMap CfgItem.selected = sections.map nameRead
  := by
  induction sections with
  | nil => rfl
  | cons o sections ih =>
    have hentries : ((entriesRead o).map (fun e => CfgItem.entry e.1 e.2)).filterMap
        CfgItem.selected = [] := by
      rw [List.filterMap_map]
      apply List.filterMap_eq_nil_iff.mpr
      intro e _
      rfl
    rw [List.flatMap_cons, List.filterMap_append, ih, sectionItems, List.filterMap_cons, hentries]
    rfl

/-- A format that prints a value after a key and an equals sign. -/
def KnobFormat (f : Bytes) : Prop :=
  Uncut true f ∧ f.takeWhile (fun c => c ≠ chr '=') ++ ascii "= " = f
    ∧ ((f.takeWhile (fun c => c ≠ chr '=')).dropWhile isspace).head? ≠ some (chr '[')

/-- The key of a format. -/
def formatKey (f : Bytes) : Bytes := Text.trimBy isspace (f.takeWhile (fun c => c ≠ chr '='))

/-- A line written for a knob gives its key, and the value up to its comment. -/
theorem parseLine_format {f : Bytes} (h : KnobFormat f) (v : Bytes) :
  parseLine (f ++ v) = some (.entry (formatKey f) (valueRead v))
  := by
  obtain ⟨huncut, hsplit, hhead⟩ := h
  have hkey : chr '=' ∉ f.takeWhile (fun c => c ≠ chr '=') := by
    intro hmem
    have hne := List.mem_takeWhile_imp hmem
    simp at hne
  rw [← hsplit] at huncut
  have hline := parseLine_pair huncut hkey hhead v
  rw [hsplit] at hline
  apply hline

/-- The keys of `save_config`, in the order of its formats. -/
def saveKeys : List Bytes :=
  [ascii "backend", ascii "threads", ascii "seed_threads", ascii "seed_once", ascii "pin",
    ascii "secs", ascii "ops", ascii "users", ascii "items", ascii "seed", ascii "repeat",
    ascii "data_dir", ascii "report_dir", ascii "report"]

/-- The formats of `save_config`. -/
def saveFormats : List Bytes :=
  [ascii "backend = ", ascii "threads = ", ascii "seed_threads = ", ascii "seed_once = ",
    ascii "pin = ", ascii "secs = ", ascii "ops  = ", ascii "users  = ", ascii "items  = ",
    ascii "seed   = ", ascii "repeat = ", ascii "data_dir = ", ascii "report_dir = ",
    ascii "report = "]

/-- The table has these formats. -/
theorem knobTable_formats (a : SaveArgs) :
  (knobTable a).map Prod.fst = saveFormats
  := rfl

/-- The formats of the knobs print a value after a key and an equals sign. -/
theorem saveFormats_spec :
  (∀ f ∈ saveFormats, KnobFormat f) ∧ saveFormats.map formatKey = saveKeys
  := by
  have hformats : ∀ f ∈ saveFormats, cutComment true f = f
      ∧ f.takeWhile (fun c => c ≠ chr '=') ++ ascii "= " = f
      ∧ ((f.takeWhile (fun c => c ≠ chr '=')).dropWhile isspace).head? ≠ some (chr '[') := by
    decide
  exact ⟨hformats, by decide⟩

/-- The format of a workload. -/
theorem workload_format :
  KnobFormat (ascii "workload = ") ∧ formatKey (ascii "workload = ") = ascii "workload"
  := by
  rw [KnobFormat, Uncut]
  decide

/-- The formats that are printed. -/
theorem knobFormat_of_mem {a : SaveArgs} {f : Bytes × Bytes} (h : f ∈ knobFormats a) :
  KnobFormat f.1
  := by
  rcases List.mem_append.mp h with h | h
  · obtain ⟨row, hrow, hf⟩ := List.mem_filterMap.mp h
    obtain ⟨v, -, rfl⟩ := Option.map_eq_some_iff.mp hf
    apply saveFormats_spec.1
    rw [← knobTable_formats a]
    apply List.mem_map_of_mem hrow
  · obtain ⟨path, -, rfl⟩ := List.mem_map.mp h
    apply workload_format.1

/-- The items of the knobs. -/
def knobItems (a : SaveArgs) : List CfgItem :=
  (knobFormats a).map (fun f => .entry (formatKey f.1) (valueRead f.2))

/-- The lines of the knobs give their items. -/
theorem filterMap_knobLines (a : SaveArgs) :
  (knobLines a).filterMap parseLine = knobItems a
  := by
  rw [knobLines, List.filterMap_map, knobItems, ← List.filterMap_eq_map]
  apply List.filterMap_congr
  intro f hf
  apply parseLine_format (knobFormat_of_mem hf)

/-- The items of the lines before the sections. -/
def benchItems (a : SaveArgs) : List CfgItem :=
  (headerLines a).filterMap parseLine ++ .select benchName :: knobItems a

/-- The items of a replay file. -/
theorem filterMap_saveLines {a : SaveArgs} {conf : Option CfgFile}
    (h : ∀ o ∈ conf.getD [], StoredSection o) :
  (saveLines a conf).filterMap parseLine
    = benchItems a ++ (otherSections (conf.getD [])).flatMap sectionItems
  := by
  have hbench : parseLine (ascii "[bench]") = some (.select benchName) := by decide
  rw [saveLines, List.filterMap_append, List.filterMap_append, List.filterMap_cons, hbench,
    filterMap_knobLines, benchItems, List.filterMap_flatMap]
  congr 1
  apply List.flatMap_congr
  intro o ho
  apply filterMap_sectionLines (h o (List.mem_of_mem_filter ho))

/-- The first line gives at most an entry, whose key is none of the knobs. -/
theorem headerItems_spec (a : SaveArgs) :
  (headerLines a).filterMap parseLine = []
    ∨ ∃ k v, (headerLines a).filterMap parseLine = [.entry (chr 'k' :: k) v]
  := by
  obtain ⟨t, ht⟩ : ∃ t, headerLine a = chr 'k' :: t := ⟨_, rfl⟩
  have hitems : (headerLines a).filterMap parseLine = (parseLine (chr 'k' :: t)).toList := by
    rw [headerLines, ht]
    cases h : parseLine (chr 'k' :: t) with
    | none => simp [h, parseLine_nil]
    | some item => simp [h, parseLine_nil]
  rw [hitems]
  rcases parseLine_letter (c := chr 'k') (by decide) (by decide) (by decide) (by decide) t
    with h | ⟨k, v, h⟩
  · left
    rw [h]
    rfl
  · right
    use k, v
    rw [h]
    rfl

/-- The lines before the sections select nothing but `[bench]`. -/
theorem selected_benchItems (a : SaveArgs) :
  (benchItems a).filterMap CfgItem.selected = [benchName]
  := by
  have hknobs : (knobItems a).filterMap CfgItem.selected = [] := by
    rw [knobItems, List.filterMap_map]
    apply List.filterMap_eq_nil_iff.mpr
    intro f _
    rfl
  have hheader : ((headerLines a).filterMap parseLine).filterMap CfgItem.selected = [] := by
    rcases headerItems_spec a with h | ⟨k, v, h⟩
    · rw [h]
      rfl
    · rw [h]
      rfl
  rw [benchItems, List.filterMap_append, hheader, List.filterMap_cons, hknobs]
  rfl

end Keybench
