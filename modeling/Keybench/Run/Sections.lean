import Keybench.Run.Save

/-!
# The engine sections of a replay file

A replay file repeats the sections other than `[bench]` of the config file the run was started
with.  Reading it back gives the same sections exactly when no value begins with a comment
sign, no name was cut behind a space, and no two sections have the same name
(`otherSections_saveConfig`).
-/

namespace Keybench

/-- Reading back loses nothing of these sections. -/
structure Rereadable (sections : List KvOptions) : Prop where
  /-- No name ends with a space. -/
  names : ∀ o ∈ sections, ∀ c ∈ o.name.getLast?, isspace c = false
  /-- No two sections have the same name. -/
  distinct : (sections.map KvOptions.name).Nodup
  /-- No value begins with a comment sign. -/
  values : ∀ o ∈ sections, ∀ e ∈ o.kv, ∀ c ∈ e.2.head?, isCommentSign c = false

/-- A name is read back when it does not end with a space. -/
theorem nameRead_eq_iff (o : KvOptions) :
  nameRead o = o.name ↔ ∀ c ∈ o.name.getLast?, isspace c = false
  := by
  rw [nameRead, List.rdropWhile_eq_self_iff]
  constructor
  · intro h c hc
    obtain ⟨hne, heq⟩ := List.mem_getLast?_eq_getLast hc
    have hlast := h hne
    rw [← heq] at hlast
    simpa using hlast
  · intro h hne
    have hlast := h _ (List.getLast_mem_getLast? hne)
    simpa using hlast

/-- Entries are read back when no value begins with a comment sign. -/
theorem entriesRead_eq_iff {o : KvOptions} (h : StoredSection o) :
  entriesRead o = o.kv ↔ ∀ e ∈ o.kv, ∀ c ∈ e.2.head?, isCommentSign c = false
  := by
  have hmap : entriesRead o = o.kv ↔ ∀ e ∈ o.kv, (e.1, valueRead e.2) = e := by
    rw [entriesRead]
    conv_lhs => rhs; rw [← List.map_id o.kv]
    apply List.map_inj_left
  rw [hmap]
  apply forall₂_congr
  intro e he
  rw [← valueRead_eq_iff (h.entries e he), Prod.ext_iff]
  simp

/-- The sections of a replay file. -/
theorem cfgLoad_saveConfig_sections {a : SaveArgs} {conf : Option CfgFile}
    (hconf : ∀ o ∈ conf.getD [], StoredSection o)
    (hfit : ∀ line ∈ saveLines a conf, FitLine line) :
  cfgLoad (saveConfig a conf)
    = sectionsOf (benchItems a ++ (otherSections (conf.getD [])).flatMap sectionItems)
  := by
  rw [cfgLoad_saveConfig hfit, filterMap_saveLines hconf]
  apply (tracks_foldl _).sections
  intro name hname
  rw [List.filterMap_append, selected_benchItems, selected_sections] at hname
  rcases List.mem_append.mp hname with hname | hname
  · rw [List.mem_singleton.mp hname]
    decide
  · obtain ⟨o, ho, rfl⟩ := List.mem_map.mp hname
    apply le_trans (List.IsPrefix.length_le (List.rdropWhile_prefix _ _))
    apply (hconf o (List.mem_of_mem_filter ho)).nameFits

/-- The section names of a replay file. -/
theorem sectionNames_saved (a : SaveArgs) (sections : List KvOptions) :
  sectionNames (benchItems a ++ sections.flatMap sectionItems)
    = benchName :: ((sections.map nameRead).filter (fun n => n ≠ benchName)).eraseDups
  := by
  have hremove : (sections.map nameRead).removeAll [benchName, benchName]
      = (sections.map nameRead).filter (fun n => n ≠ benchName) := by
    apply List.filter_congr
    intro n _
    by_cases hn : n = benchName
    · simp [hn]
    · simp [hn]
  have hbench : [benchName, benchName].eraseDups = [benchName] := by decide
  have happ : benchName :: ([benchName] ++ sections.map nameRead)
      = [benchName, benchName] ++ sections.map nameRead := rfl
  rw [sectionNames, List.filterMap_append, selected_benchItems, selected_sections, happ,
    List.eraseDups_append, hremove, hbench, List.singleton_append]

/-- The sections other than `[bench]` of a replay file. -/
theorem otherSections_saved (a : SaveArgs) (sections : List KvOptions) :
  otherSections (sectionsOf (benchItems a ++ sections.flatMap sectionItems))
    = ((sections.map nameRead).filter (fun n => n ≠ benchName)).eraseDups.map
        (fun n => ⟨n, (sections.filter (fun o => nameRead o = n)).flatMap entriesRead⟩)
  := by
  have hmem : ∀ n ∈ ((sections.map nameRead).filter (fun n => n ≠ benchName)).eraseDups,
      n ≠ benchName := by
    intro n hn
    rw [List.mem_eraseDups, List.mem_filter] at hn
    simpa using hn.2
  have hself : (((sections.map nameRead).filter (fun n => n ≠ benchName)).eraseDups).filter
      (fun n => n ≠ benchName)
      = ((sections.map nameRead).filter (fun n => n ≠ benchName)).eraseDups := by
    apply List.filter_eq_self.mpr
    intro n hn
    simpa using hmem n hn
  rw [otherSections, sectionsOf, List.filter_map, sectionNames_saved]
  have hcomp : ((fun o : KvOptions => decide (o.name ≠ benchName)) ∘ fun n =>
      (⟨n, entriesOf (benchItems a ++ sections.flatMap sectionItems) n⟩ : KvOptions))
      = fun n => decide (n ≠ benchName) := rfl
  rw [hcomp, List.filter_cons_of_neg (by simp), hself]
  apply List.map_congr_left
  intro n hn
  have hnone : n ∉ sectionNames (benchItems a) := by
    rw [sectionNames, selected_benchItems, List.mem_eraseDups]
    simpa using hmem n hn
  rw [entriesOf_sections, entriesOf_eq_nil hnone, List.nil_append]

/-- The only section read back under the name of a section is the section. -/
theorem filter_nameRead {sections : List KvOptions}
    (hdistinct : (sections.map KvOptions.name).Nodup)
    (hread : ∀ o ∈ sections, nameRead o = o.name) {o : KvOptions} (ho : o ∈ sections) :
  sections.filter (fun o' => nameRead o' = o.name) = [o]
  := by
  rw [← Keyed.filter_key KvOptions.name hdistinct ho]
  apply List.filter_congr
  intro o' ho'
  rw [hread o' ho']

/-- Sections are read back from a replay file exactly when reading loses nothing of them. -/
theorem otherSections_saved_eq_iff (a : SaveArgs) {sections : List KvOptions}
    (hstored : ∀ o ∈ sections, StoredSection o) (hother : ∀ o ∈ sections, o.name ≠ benchName) :
  otherSections (sectionsOf (benchItems a ++ sections.flatMap sectionItems)) = sections
    ↔ Rereadable sections
  := by
  rw [otherSections_saved]
  constructor
  · intro heq
    have hnames : ((sections.map nameRead).filter (fun n => n ≠ benchName)).eraseDups
        = sections.map KvOptions.name := by
      conv_rhs => rw [← heq]
      rw [List.map_map]
      exact (List.map_id _).symm
    have hdistinct : (sections.map KvOptions.name).Nodup := by
      rw [← hnames]
      apply Keyed.nodup_eraseDups
    have hread : ∀ o ∈ sections, nameRead o = o.name := by
      intro o ho
      have hmem : o.name ∈ ((sections.map nameRead).filter (fun n => n ≠ benchName)).eraseDups := by
        rw [hnames]
        apply List.mem_map_of_mem ho
      rw [List.mem_eraseDups, List.mem_filter] at hmem
      obtain ⟨o', -, ho'⟩ := List.mem_map.mp hmem.1
      rw [nameRead, ← ho', nameRead, List.rdropWhile_idempotent]
    constructor
    · intro o ho
      apply (nameRead_eq_iff o).mp (hread o ho)
    · apply hdistinct
    · intro o ho
      apply (entriesRead_eq_iff (hstored o ho)).mp
      have hmem := ho
      rw [← heq] at hmem
      obtain ⟨n, -, hn⟩ := List.mem_map.mp hmem
      have hname : n = o.name := congrArg KvOptions.name hn
      have hkv : (sections.filter (fun o' => nameRead o' = n)).flatMap entriesRead = o.kv :=
        congrArg KvOptions.kv hn
      rw [hname, filter_nameRead hdistinct hread ho, List.flatMap_singleton] at hkv
      apply hkv
  · intro h
    have hread : ∀ o ∈ sections, nameRead o = o.name :=
      fun o ho => (nameRead_eq_iff o).mpr (h.names o ho)
    have hnames : ((sections.map nameRead).filter (fun n => n ≠ benchName)).eraseDups
        = sections.map KvOptions.name := by
      have hself : (sections.map KvOptions.name).filter (fun n => n ≠ benchName)
          = sections.map KvOptions.name := by
        apply List.filter_eq_self.mpr
        intro n hn
        obtain ⟨o, ho, rfl⟩ := List.mem_map.mp hn
        simpa using hother o ho
      rw [List.map_congr_left hread, hself, Keyed.eraseDups_of_nodup h.distinct]
    rw [hnames, List.map_map]
    conv_rhs => rw [← List.map_id sections]
    apply List.map_congr_left
    intro o ho
    have hentries := (entriesRead_eq_iff (hstored o ho)).mpr (h.values o ho)
    have hfilter := filter_nameRead h.distinct hread ho
    rw [Function.comp_apply, hfilter, List.flatMap_singleton, hentries]
    rfl

/-- The lines of a replay file hold no newline when those of the knobs hold none. -/
theorem storedText_saveLines {a : SaveArgs} {conf : Option CfgFile}
    (hconf : ∀ o ∈ conf.getD [], StoredSection o)
    (hknobs : ∀ line ∈ headerLines a ++ knobLines a, StoredText line) :
  ∀ line ∈ saveLines a conf, StoredText line
  := by
  intro line hline
  rw [saveLines, List.mem_append, List.mem_append, List.mem_cons] at hline
  rcases hline with (hline | rfl | hline) | hline
  · apply hknobs line (List.mem_append_left _ hline)
  · exact ⟨by decide, by decide⟩
  · apply hknobs line (List.mem_append_right _ hline)
  · obtain ⟨o, ho, hline⟩ := List.mem_flatMap.mp hline
    have hstored := hconf o (List.mem_of_mem_filter ho)
    rw [sectionLines, List.mem_cons, List.mem_cons] at hline
    rcases hline with rfl | rfl | hline
    · exact ⟨by simp, by simp⟩
    · obtain ⟨hnewline, hnul⟩ := hstored.name.text
      constructor
      · simp [hnewline]
        decide
      · simp [hnul]
        decide
    · obtain ⟨e, he, rfl⟩ := List.mem_map.mp hline
      have hentry := hstored.entries e he
      have hequals : chr '\n' ∉ ascii " = " ∧ 0 ∉ ascii " = " := by decide
      constructor
      · simp [hentry.keyText.1, hentry.valText.1, hequals.1]
      · simp [hentry.keyText.2, hentry.valText.2, hequals.2]

/-- The lines of a replay file fit the line buffer when those of the knobs and of the entries
do. -/
theorem fitLine_saveLines {a : SaveArgs} {conf : CfgFile}
    (hconf : ∀ o ∈ conf, StoredSection o)
    (hknobs : ∀ line ∈ headerLines a ++ knobLines a, FitLine line)
    (hentries : ∀ o ∈ otherSections conf, ∀ e ∈ o.kv,
      (e.1 ++ ascii " = " ++ e.2).length ≤ lineMax) :
  ∀ line ∈ saveLines a (some conf), FitLine line
  := by
  intro line hline
  have hconf' : ∀ o ∈ (some conf).getD [], StoredSection o := hconf
  have htext := storedText_saveLines hconf'
    (fun line hline => (hknobs line hline).text) line hline
  use htext
  rw [saveLines, List.mem_append, List.mem_append, List.mem_cons] at hline
  rcases hline with (hline | rfl | hline) | hline
  · apply (hknobs line (List.mem_append_left _ hline)).fits
  · decide
  · apply (hknobs line (List.mem_append_right _ hline)).fits
  · obtain ⟨o, ho, hline⟩ := List.mem_flatMap.mp hline
    have hstored := hconf o (List.mem_of_mem_filter ho)
    rw [sectionLines, List.mem_cons, List.mem_cons] at hline
    rcases hline with rfl | rfl | hline
    · decide
    · have hlen := hstored.nameFits
      simp [lineMax]
      omega
    · obtain ⟨e, he, rfl⟩ := List.mem_map.mp hline
      apply hentries o ho e he

/-- The sections other than `[bench]` of a config file are the same after they were saved and
loaded, exactly when reading loses nothing of them. -/
theorem otherSections_saveConfig (text : Bytes) (a : SaveArgs)
    (hknobs : ∀ line ∈ headerLines a ++ knobLines a, FitLine line)
    (hentries : ∀ o ∈ otherSections (cfgLoad text), ∀ e ∈ o.kv,
      (e.1 ++ ascii " = " ++ e.2).length ≤ lineMax) :
  otherSections (cfgLoad (saveConfig a (some (cfgLoad text)))) = otherSections (cfgLoad text)
    ↔ Rereadable (otherSections (cfgLoad text))
  := by
  have hstored : ∀ o ∈ cfgLoad text, StoredSection o := fun o ho => storedSection_of_mem_cfgLoad ho
  have hfit := fitLine_saveLines hstored hknobs hentries
  have hload : cfgLoad (saveConfig a (some (cfgLoad text)))
      = sectionsOf (benchItems a ++ (otherSections (cfgLoad text)).flatMap sectionItems) := by
    apply cfgLoad_saveConfig_sections _ hfit
    exact hstored
  rw [hload]
  apply otherSections_saved_eq_iff
  · intro o ho
    apply hstored o (List.mem_of_mem_filter ho)
  · intro o ho
    simpa using List.of_mem_filter ho

/-- The arguments of a run with no options. -/
def plainSave : SaveArgs :=
  { path := ascii "replay.cnf", cfg := {}, engines := ascii "skiplist", threads := ascii "1",
    repeats := 1, report := none, reportDir := none, files := [ascii "cart.lua"] }

/-- The lines of the plain run fit. -/
theorem plainSave_fit :
  ∀ line ∈ headerLines plainSave ++ knobLines plainSave, FitLine line
  := by
  have hfit : ∀ line ∈ headerLines plainSave ++ knobLines plainSave,
      (chr '\n' ∉ line ∧ 0 ∉ line) ∧ line.length ≤ lineMax := by
    decide +kernel
  intro line hline
  obtain ⟨htext, hlen⟩ := hfit line hline
  exact ⟨htext, hlen⟩

/-- An option string with a semicolon inside is saved and loaded. -/
theorem otherSections_saveConfig_example :
  otherSections (cfgLoad (saveConfig plainSave (some (cfgLoad (ascii "[a]\nk={x=1;y=2}\n")))))
    = [⟨ascii "a", [(ascii "k", ascii "{x=1;y=2}")]⟩]
  := by
  have hload : otherSections (cfgLoad (ascii "[a]\nk={x=1;y=2}\n"))
      = [⟨ascii "a", [(ascii "k", ascii "{x=1;y=2}")]⟩] := by
    decide
  have hiff := otherSections_saveConfig (ascii "[a]\nk={x=1;y=2}\n") plainSave plainSave_fit
    (by rw [hload]; decide)
  rw [hload] at hiff
  apply hiff.mpr
  constructor
  · decide +kernel
  · decide
  · decide +kernel

/-- A value that begins with a comment sign is lost. -/
theorem otherSections_not_saveConfig :
  ¬ ∀ (text : Bytes) (a : SaveArgs),
    (∀ line ∈ headerLines a ++ knobLines a, FitLine line) →
    (∀ o ∈ otherSections (cfgLoad text), ∀ e ∈ o.kv,
      (e.1 ++ ascii " = " ++ e.2).length ≤ lineMax) →
    otherSections (cfgLoad (saveConfig a (some (cfgLoad text)))) = otherSections (cfgLoad text)
  := by
  intro h
  have heq := h (ascii "[a]\nk=#v\n") plainSave plainSave_fit (by decide)
  revert heq
  decide +kernel

end Keybench
