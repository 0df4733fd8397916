import Keybench.Run.Reporters

/-!
# Report directories

`setup_report_dir` creates `base/<timestamp>` and takes the directory also when `mkdir` says that
it exists.  Over a history of starts with one base directory, every directory is new exactly when
no two starts have the same time stamp and none of the directories is there from before
(`keepsApart`).
-/

namespace Keybench

/-! ## Time stamps -/

/-- `struct tm`, with the ranges that `localtime_r` keeps. -/
structure Tm where
  /-- `tm_year`. -/
  year : Int32
  /-- `tm_mon`. -/
  mon : Fin 12
  /-- `tm_mday`. -/
  mday : Fin 32
  /-- `tm_hour`. -/
  hour : Fin 24
  /-- `tm_min`. -/
  min : Fin 60
  /-- `tm_sec`. -/
  sec : Fin 61
deriving DecidableEq

/-- A field of `strftime` with two digits. -/
def twoDigits (n : ℕ) : Bytes := zeroPad 2 (fmtNat n)

/-- The month, the day and the time of day of a time stamp. -/
def stampFields (tm : Tm) : Bytes :=
  twoDigits (tm.mon + 1) ++ (twoDigits tm.mday ++ chr '-' :: (twoDigits tm.hour
    ++ (twoDigits tm.min ++ twoDigits tm.sec)))

/-- `strftime` with the format `%Y%m%d-%H%M%S`. -/
def strftimeStamp (tm : Tm) : Bytes := fmtInt (tm.year.toInt + 1900) ++ stampFields tm

/-! ## Directories -/

/-- The reasons for which `mkdir` fails. -/
inductive Errno
  /-- `EEXIST`. -/
  | exist
  /-- Any other, with the text of `strerror`. -/
  | other (text : Bytes)
deriving DecidableEq

/-- `mkdir` of a path, where the paths of `fs` exist; it may be refused for another reason. -/
def mkdir (refusal : Option Bytes) (fs : List Bytes) (path : Bytes) : Except Errno (List Bytes) :=
  match refusal with
  | some text => .error (.other text)
  | none => if fs.contains path then .error .exist else .ok (path :: fs)

/-- A refused `mkdir`. -/
theorem mkdir_some (text : Bytes) (fs : List Bytes) (path : Bytes) :
  mkdir (some text) fs path = .error (.other text)
  := rfl

/-- A `mkdir` that is not refused. -/
theorem mkdir_none (fs : List Bytes) (path : Bytes) :
  mkdir none fs path = if path ∈ fs then .error .exist else .ok (path :: fs)
  := by
  rw [mkdir, if_congr List.contains_iff_mem rfl rfl]

/-- What a start of the program finds. -/
structure Start where
  /-- The engines, the probes and the files that can be read. -/
  env : Environment
  /-- The clock. -/
  now : ℤ
  /-- `localtime_r`. -/
  localtime : ℤ → Tm
  /-- Why the base directory is refused. -/
  refuseBase : Option Bytes
  /-- Why the report directory is refused. -/
  refuseDir : Option Bytes
  /-- The files that can be opened for writing. -/
  opens : Bytes → Bool

/-- The time stamp of a start. -/
def Start.stamp (s : Start) : Bytes := strftimeStamp (s.localtime s.now)

/-- The environment of a start, with its time stamp. -/
def Start.stamped (s : Start) : Environment := { s.env with stamp := s.stamp }

/-- What `setup_report_dir` hands to `main`. -/
structure ReportDir where
  /-- `rd_dir`. -/
  dir : Bytes
  /-- `rd_spec`. -/
  spec : Bytes
  /-- `rd_replay`. -/
  replay : Bytes
deriving DecidableEq

/-- What `setup_report_dir` hands out when it does not fail. -/
def Start.reportDir (s : Start) (base : Bytes) : ReportDir where
  dir := reportDirPath s.stamped base
  spec := reportDirSpec s.stamped base
  replay := reportDirReplay s.stamped base

/-- The paths that exist after `mkdir` of the base directory, whose result is not looked at. -/
def mkdirBase (s : Start) (fs : List Bytes) (base : Bytes) : List Bytes :=
  match mkdir s.refuseBase fs base with
  | .ok fs' => fs'
  | .error _ => fs

/-- `setup_report_dir`: the paths that exist after it, and its result or its line on `stderr`. -/
def setupReportDir (s : Start) (fs : List Bytes) (base : Bytes) :
    List Bytes × Except Bytes ReportDir :=
  let dir := reportDirPath s.stamped base
  let fs := mkdirBase s fs base
  match mkdir s.refuseDir fs dir with
  | .ok fs' => (fs', .ok (s.reportDir base))
  | .error .exist => (fs, .ok (s.reportDir base))
  | .error (.other text) =>
    (fs, .error (ascii "cannot create report dir '" ++ dir ++ ascii "': " ++ text ++ ascii "\n"))

/-- The files that a run writes with a report directory: the replay file, and those of the
reporters. -/
def artifacts (opens : Bytes → Bool) (r : ReportDir) : List Bytes :=
  [r.replay].filter opens ++ (reportersParse opens (some r.spec)).opened

/-- The paths that exist after a run. -/
def runIn (base : Bytes) (fs : List Bytes) (s : Start) : List Bytes :=
  match setupReportDir s fs base with
  | (fs', .ok r) => artifacts s.opens r ++ fs'
  | (fs', .error _) => fs'

/-- The paths that exist after a sequence of runs. -/
def history (base : Bytes) (fs : List Bytes) (starts : List Start) : List Bytes :=
  starts.foldl (runIn base) fs

/-- Each run that gets a report directory gets one that did not exist, and the runs keep apart. -/
structure KeepsApart (base : Bytes) (fs : List Bytes) (starts : List Start) : Prop where
  fresh : ∀ before s after r, starts = before ++ s :: after →
    (setupReportDir s (history base fs before) base).2 = .ok r → r.dir ∉ history base fs before
  apart : ∀ before s mid s' after r r', starts = before ++ s :: (mid ++ s' :: after) →
    (setupReportDir s (history base fs before) base).2 = .ok r →
    (setupReportDir s' (history base fs (before ++ s :: mid)) base).2 = .ok r' →
    r.dir ≠ r'.dir ∧ List.Disjoint (artifacts s.opens r) (artifacts s'.opens r')

/-- The directories of the starts that are not refused are new: they do not exist before the
first run, none is the base directory that an earlier run has created, and none has the path of
an earlier one. -/
def Separate (base : Bytes) (fs : List Bytes) (starts : List Start) : Prop :=
  ∀ before s after, starts = before ++ s :: after → s.refuseDir = none →
    reportDirPath s.stamped base ∉ fs ∧
    ∀ s' ∈ before,
      (s'.refuseBase = none → reportDirPath s.stamped base ≠ base) ∧
      (s'.refuseDir = none → reportDirPath s.stamped base ≠ reportDirPath s'.stamped base)

/-! ## The text of a time stamp -/

/-- Two digits. -/
theorem length_twoDigits {n : ℕ} (h : n < 100) :
  (twoDigits n).length = 2
  := by
  have hall : ∀ n : Fin 100, (twoDigits n).length = 2 := by
    decide +kernel
  apply hall ⟨n, h⟩

/-- Two digits tell their number. -/
theorem twoDigits_inj {m n : ℕ} (h : twoDigits m = twoDigits n) :
  m = n
  := by
  rw [twoDigits, twoDigits] at h
  rw [← ofDigits_zeroPad 2 m, h, ofDigits_zeroPad]

/-- The fields after the year have a fixed length. -/
theorem length_stampFields (tm : Tm) :
  (stampFields tm).length = 11
  := by
  have hmon : (tm.mon : ℕ) + 1 < 100 := by omega
  have hmday : (tm.mday : ℕ) < 100 := by omega
  have hhour : (tm.hour : ℕ) < 100 := by omega
  have hmin : (tm.min : ℕ) < 100 := by omega
  have hsec : (tm.sec : ℕ) < 100 := by omega
  simp only [stampFields, List.length_append, List.length_cons, length_twoDigits hmon,
    length_twoDigits hmday, length_twoDigits hhour, length_twoDigits hmin, length_twoDigits hsec]

/-- The fields tell the month, the day and the time of day. -/
theorem stampFields_inj {a b : Tm} (h : stampFields a = stampFields b) :
  a.mon = b.mon ∧ a.mday = b.mday ∧ a.hour = b.hour ∧ a.min = b.min ∧ a.sec = b.sec
  := by
  have hlen : ∀ m n : ℕ, m < 100 → n < 100 → (twoDigits m).length = (twoDigits n).length := by
    intro m n hm hn
    rw [length_twoDigits hm, length_twoDigits hn]
  obtain ⟨hmon, h⟩ := List.append_inj h (hlen _ _ (by omega) (by omega))
  obtain ⟨hmday, h⟩ := List.append_inj h (hlen _ _ (by omega) (by omega))
  obtain ⟨hhour, h⟩ := List.append_inj (List.cons.inj h).2 (hlen _ _ (by omega) (by omega))
  obtain ⟨hmin, hsec⟩ := List.append_inj h (hlen _ _ (by omega) (by omega))
  have hmon' := twoDigits_inj hmon
  exact ⟨Fin.ext (by omega), Fin.ext (twoDigits_inj hmday), Fin.ext (twoDigits_inj hhour),
    Fin.ext (twoDigits_inj hmin), Fin.ext (twoDigits_inj hsec)⟩

/-- A time stamp tells the local time to the second. -/
theorem strftimeStamp_inj {a b : Tm} (h : strftimeStamp a = strftimeStamp b) :
  a = b
  := by
  have hlen : (stampFields a).length = (stampFields b).length := by
    rw [length_stampFields, length_stampFields]
  obtain ⟨hyear, hfields⟩ := List.append_inj' h hlen
  obtain ⟨hmon, hmday, hhour, hmin, hsec⟩ := stampFields_inj hfields
  have hyears : a.year = b.year := by
    apply Int32.toInt_inj.mp
    have h' := fmtInt_inj hyear
    omega
  rcases a with ⟨⟩
  rcases b with ⟨⟩
  simp_all

/-- A time stamp consists of digits and dashes. -/
theorem mem_strftimeStamp {tm : Tm} {c : UInt8} (h : c ∈ strftimeStamp tm) :
  isdigit c = true ∨ c = chr '-'
  := by
  have htwo : ∀ n : ℕ, c ∈ twoDigits n → isdigit c = true := by
    intro n hn
    apply isdigit_of_mem_zeroPad hn
  rcases List.mem_append.mp h with h | h
  · rw [fmtInt] at h
    split_ifs at h
    · rcases List.mem_cons.mp h with h | h
      · apply Or.inr h
      · apply Or.inl (isdigit_of_mem_fmtNat h)
    · apply Or.inl (isdigit_of_mem_fmtNat h)
  · simp only [stampFields, List.mem_append, List.mem_cons] at h
    rcases h with h | h | h | h | h | h
    · apply Or.inl (htwo _ h)
    · apply Or.inl (htwo _ h)
    · apply Or.inr h
    · apply Or.inl (htwo _ h)
    · apply Or.inl (htwo _ h)
    · apply Or.inl (htwo _ h)

/-- A time stamp has no slash and no comma. -/
theorem notMem_strftimeStamp (tm : Tm) :
  chr '/' ∉ strftimeStamp tm ∧ chr ',' ∉ strftimeStamp tm
  := by
  have hno : ∀ c : UInt8, isdigit c = false → c ≠ chr '-' → c ∉ strftimeStamp tm := by
    intro c hdigit hdash hmem
    rcases mem_strftimeStamp hmem with h | h
    · rw [hdigit] at h
      cases h
    · apply hdash h
  constructor
  · apply hno _ (by decide) (by decide)
  · apply hno _ (by decide) (by decide)

/-! ## The path of a report directory -/

/-- The path of a report directory. -/
theorem reportDirPath_stamped (s : Start) (base : Bytes) :
  reportDirPath s.stamped base = (base ++ (chr '/' :: s.stamp)).take 599
  := by
  have hslash : ascii "/" = [chr '/'] := by decide
  rw [reportDirPath, snprintfStr, hslash, List.append_assoc]
  rfl

/-- When the paths fit their buffer, two starts have the same directory exactly in the same second
of local time. -/
theorem reportDirPath_eq_iff {s s' : Start} {base : Bytes}
    (h : (base ++ chr '/' :: s.stamp).length ≤ 599)
    (h' : (base ++ chr '/' :: s'.stamp).length ≤ 599) :
  reportDirPath s.stamped base = reportDirPath s'.stamped base
    ↔ s.localtime s.now = s'.localtime s'.now
  := by
  rw [reportDirPath_stamped, reportDirPath_stamped, List.take_of_length_le h,
    List.take_of_length_le h']
  constructor
  · intro heq
    apply strftimeStamp_inj
    apply (List.cons.inj (List.append_cancel_left heq)).2
  · intro heq
    rw [Start.stamp, Start.stamp, heq]

/-- A report directory has a comma only from its base. -/
theorem comma_mem_reportDirPath (s : Start) (base : Bytes) :
  chr ',' ∈ reportDirPath s.stamped base ↔ chr ',' ∈ base.take 599
  := by
  rw [reportDirPath_stamped, List.take_append, List.mem_append]
  constructor
  · rintro (h | h)
    · apply h
    · have hslash : chr ',' ≠ chr '/' := by decide
      have hmem := List.mem_of_mem_take h
      rcases List.mem_cons.mp hmem with h | h
      · apply absurd h hslash
      · apply absurd h (notMem_strftimeStamp _).2
  · intro h
    apply Or.inl h

/-- No report directory is inside another. -/
theorem reportDirPath_ne_append (s s' : Start) (base name : Bytes) :
  reportDirPath s.stamped base ≠ reportDirPath s'.stamped base ++ chr '/' :: name
  := by
  intro heq
  rw [reportDirPath_stamped, reportDirPath_stamped] at heq
  by_cases hlen : (base ++ chr '/' :: s'.stamp).length ≤ 599
  · -- the time stamp would go on with a slash
    rw [List.take_of_length_le hlen] at heq
    have hprefix : base ++ (chr '/' :: s'.stamp ++ chr '/' :: name) <+: base ++ chr '/' :: s.stamp
        := by
      rw [← List.append_assoc, ← heq]
      apply List.take_prefix
    rw [List.prefix_append_right_inj, List.cons_append, List.cons_prefix_cons] at hprefix
    apply (notMem_strftimeStamp (s.localtime s.now)).1
    apply hprefix.2.subset
    simp
  · have hle := congrArg List.length heq
    simp only [List.length_append, List.length_take, List.length_cons] at hle hlen
    omega

/-! ## The artifacts of a run -/

/-- The files of the tokens of a spec. -/
def tokenFiles (toks : List Bytes) : List Bytes := toks.flatMap (fun tok => (sinkFile tok).toList)

/-- A turn of the parser opens only the file of its token. -/
theorem mem_opened_parseSink {opens : Bytes → Bool} {tok file : Bytes} {st : SinksParsed}
    {sinks : List Sink} (h : file ∈ (parseSink opens tok st sinks).opened) :
  file ∈ st.opened ∨ file ∈ sinkFile tok
  := by
  rw [parseSink] at h
  split_ifs at h
  · apply Or.inl h
  · apply Or.inl h
  · have hmem : file ∈ st.opened ++ (sinkFile tok).toList := by
      cases hkind : makeReporter (sinkToken tok).1 with
      | none => simpa [hkind] using h
      | some kind => simpa [hkind] using h
    rcases List.mem_append.mp hmem with h | h
    · apply Or.inl h
    · apply Or.inr (Option.mem_toList.mp h)

/-- The parser opens only files of tokens. -/
theorem mem_opened_parseSinks {opens : Bytes → Bool} {toks : List Bytes} {file : Bytes}
    {st : SinksParsed} (h : file ∈ (parseSinks opens toks st).opened) :
  file ∈ st.opened ∨ file ∈ tokenFiles toks
  := by
  induction toks generalizing st with
  | nil => apply Or.inl h
  | cons tok toks ih =>
    rw [parseSinks] at h
    cases hst : st.sinks with
    | error e =>
      rw [hst] at h
      apply Or.inl h
    | ok sinks =>
      rw [hst] at h
      rw [tokenFiles, List.flatMap_cons, List.mem_append]
      rcases ih h with h | h
      · rcases mem_opened_parseSink h with h | h
        · apply Or.inl h
        · apply Or.inr (Or.inl (Option.mem_toList.mpr h))
      · apply Or.inr (Or.inr h)

/-- `reporters_parse` opens only files of the tokens of its spec. -/
theorem mem_opened_reportersParse {opens : Bytes → Bool} {spec file : Bytes}
    (h : file ∈ (reportersParse opens (some spec)).opened) :
  file ∈ tokenFiles (strtokComma spec)
  := by
  rw [reportersParse, Option.getD_some] at h
  have hopened : file ∈ (parseSinks opens (strtokComma spec) ⟨[], .ok []⟩).opened := by
    split_ifs at h
    · exact h
    · exact h
  rcases mem_opened_parseSinks hopened with h | h
  · cases h
  · exact h

/-- The file of a token is a part of it. -/
theorem sinkFile_subset {tok file : Bytes} (h : file ∈ sinkFile tok) :
  file ⊆ tok
  := by
  rw [sinkFile, Option.mem_filter_iff] at h
  by_cases hcolon : chr ':' ∈ tok
  · obtain ⟨name, path, rfl, hname⟩ := List.eq_append_cons_of_mem hcolon
    rw [sinkToken_append hname] at h
    rw [← Option.mem_some_iff.mp h.1]
    intro c hc
    simp [hc]
  · rw [sinkToken, Text.splitFirst_eq_none hcolon] at h
    cases h.1

/-- A file that `reporters_parse` opens has no comma. -/
theorem comma_notMem_opened {opens : Bytes → Bool} {spec file : Bytes}
    (h : file ∈ (reportersParse opens (some spec)).opened) :
  chr ',' ∉ file
  := by
  obtain ⟨tok, htok, hfile⟩ := List.mem_flatMap.mp (mem_opened_reportersParse h)
  rw [strtokComma, List.mem_filter] at htok
  intro hcomma
  apply (Text.mem_splitOn htok.1).1
  apply sinkFile_subset (Option.mem_toList.mp hfile) hcomma

/-- The replay file is in the report directory. -/
theorem reportDirReplay_eq (env : Environment) (base : Bytes) :
  reportDirReplay env base = reportDirPath env base ++ chr '/' :: ascii "replay.cnf"
  := by
  have hname : ascii "/replay.cnf" = chr '/' :: ascii "replay.cnf" := by decide
  have hlen := length_reportDirPath env base
  rw [reportDirReplay, snprintfStr, hname, List.take_of_length_le]
  have hreplay : (ascii "replay.cnf").length = 10 := by decide
  rw [List.length_append, List.length_cons, hreplay]
  omega

/-- When the path of the directory has no comma, the artifacts are files in it. -/
theorem mem_artifacts {opens : Bytes → Bool} {s : Start} {base file : Bytes}
    (hcomma : chr ',' ∉ reportDirPath s.stamped base)
    (h : file ∈ artifacts opens (s.reportDir base)) :
  ∃ name, chr '/' ∉ name ∧ file = reportDirPath s.stamped base ++ chr '/' :: name
  := by
  rcases List.mem_append.mp h with h | h
  · have hreplay := List.mem_singleton.mp (List.mem_of_mem_filter h)
    use ascii "replay.cnf", by decide
    rw [hreplay]
    apply reportDirReplay_eq
  · have hfile := mem_opened_reportersParse h
    rw [Start.reportDir, strtokComma_spec hcomma, tokenFiles, flatMap_specParts] at hfile
    simp only [reportFiles, List.mem_cons, List.not_mem_nil, or_false] at hfile
    rcases hfile with rfl | rfl | rfl
    · use ascii "report.txt", by decide
      congr 1
    · use ascii "points.tsv", by decide
      congr 1
    · use ascii "timeline.tsv", by decide
      congr 1

/-- No report directory is an artifact. -/
theorem reportDirPath_notMem_artifacts (opens : Bytes → Bool) (s s' : Start) (base : Bytes) :
  reportDirPath s.stamped base ∉ artifacts opens (s'.reportDir base)
  := by
  intro h
  by_cases hcomma : chr ',' ∈ reportDirPath s'.stamped base
  · -- every file of a reporter has no comma, and the directory has one
    have hcomma' : chr ',' ∈ reportDirPath s.stamped base := by
      rw [comma_mem_reportDirPath] at hcomma ⊢
      exact hcomma
    rcases List.mem_append.mp h with h | h
    · have hreplay := List.mem_singleton.mp (List.mem_of_mem_filter h)
      rw [Start.reportDir, reportDirReplay_eq] at hreplay
      apply reportDirPath_ne_append _ _ _ _ hreplay
    · apply comma_notMem_opened h hcomma'
  · obtain ⟨name, -, heq⟩ := mem_artifacts hcomma h
    apply reportDirPath_ne_append _ _ _ _ heq

/-- Artifacts of different directories differ. -/
theorem disjoint_artifacts {opens opens' : Bytes → Bool} {s s' : Start} {base : Bytes}
    (hcomma : chr ',' ∉ base)
    (h : reportDirPath s.stamped base ≠ reportDirPath s'.stamped base) :
  List.Disjoint (artifacts opens (s.reportDir base)) (artifacts opens' (s'.reportDir base))
  := by
  have hno : ∀ s : Start, chr ',' ∉ reportDirPath s.stamped base := by
    intro s hmem
    rw [comma_mem_reportDirPath] at hmem
    apply hcomma (List.mem_of_mem_take hmem)
  intro file hfile hfile'
  obtain ⟨name, hname, heq⟩ := mem_artifacts (hno s) hfile
  obtain ⟨name', hname', heq'⟩ := mem_artifacts (hno s') hfile'
  apply h
  rw [heq] at heq'
  apply (Text.append_cons_inj hname hname' heq').1

/-! ## Histories -/

/-- A start that is not refused gets its directory. -/
theorem setupReportDir_ok_iff {s : Start} {fs : List Bytes} {base : Bytes} {r : ReportDir} :
  (setupReportDir s fs base).2 = .ok r ↔ s.refuseDir = none ∧ r = s.reportDir base
  := by
  rw [setupReportDir]
  cases s.refuseDir with
  | some text => simp [mkdir_some]
  | none =>
    rw [mkdir_none]
    split_ifs
    · simp [eq_comm]
    · simp [eq_comm]

/-- What a run creates. -/
def Made (base : Bytes) (s : Start) (path : Bytes) : Prop :=
  (s.refuseBase = none ∧ path = base) ∨
  (s.refuseDir = none ∧
    (path = reportDirPath s.stamped base ∨ path ∈ artifacts s.opens (s.reportDir base)))

/-- The base directory exists after it is created. -/
theorem mem_mkdirBase {s : Start} {fs : List Bytes} {base path : Bytes} :
  path ∈ mkdirBase s fs base ↔ path ∈ fs ∨ (s.refuseBase = none ∧ path = base)
  := by
  rw [mkdirBase]
  cases s.refuseBase with
  | some text => simp [mkdir_some]
  | none =>
    rw [mkdir_none]
    by_cases hbase : base ∈ fs
    · simp only [hbase, if_true, true_and]
      constructor
      · exact Or.inl
      · rintro (h | rfl)
        · exact h
        · exact hbase
    · simp [hbase, or_comm]

/-- What exists after a run: what existed before, and what the run creates. -/
theorem mem_runIn {s : Start} {fs : List Bytes} {base path : Bytes} :
  path ∈ runIn base fs s ↔ path ∈ fs ∨ Made base s path
  := by
  rw [Made, ← or_assoc, ← mem_mkdirBase, runIn, setupReportDir]
  cases s.refuseDir with
  | some text => simp [mkdir_some]
  | none =>
    rw [mkdir_none]
    by_cases hdir : reportDirPath s.stamped base ∈ mkdirBase s fs base
    · simp only [hdir, if_true, List.mem_append, true_and]
      constructor
      · rintro (h | h)
        · exact Or.inr (Or.inr h)
        · exact Or.inl h
      · rintro (h | rfl | h)
        · exact Or.inr h
        · exact Or.inr hdir
        · exact Or.inl h
    · simp only [hdir, if_false, List.mem_append, List.mem_cons, true_and]
      tauto

/-- What exists after a history: what existed before it, and what its runs create. -/
theorem mem_history {base : Bytes} {fs : List Bytes} {starts : List Start} {path : Bytes} :
  path ∈ history base fs starts ↔ path ∈ fs ∨ ∃ s ∈ starts, Made base s path
  := by
  induction starts generalizing fs with
  | nil => simp [history]
  | cons s starts ih =>
    have hstep : history base fs (s :: starts) = history base (runIn base fs s) starts := rfl
    rw [hstep, ih, mem_runIn, List.exists_mem_cons_iff, or_assoc]

/-- A report directory is created only as the base directory of a run or as its report
directory. -/
theorem made_reportDirPath {base : Bytes} {s s' : Start} :
  Made base s' (reportDirPath s.stamped base)
    ↔ (s'.refuseBase = none ∧ reportDirPath s.stamped base = base) ∨
      (s'.refuseDir = none ∧ reportDirPath s.stamped base = reportDirPath s'.stamped base)
  := by
  rw [Made, or_iff_left (reportDirPath_notMem_artifacts _ _ _ _)]

/-- The directories of a history are new exactly when those of its starts are separate. -/
theorem fresh_iff (base : Bytes) (fs : List Bytes) (starts : List Start) :
  (∀ before s after r, starts = before ++ s :: after →
    (setupReportDir s (history base fs before) base).2 = .ok r → r.dir ∉ history base fs before)
    ↔ Separate base fs starts
  := by
  constructor
  · intro h before s after hstarts hdir
    have hnew := h before s after _ hstarts (setupReportDir_ok_iff.mpr ⟨hdir, rfl⟩)
    rw [Start.reportDir, mem_history, not_or] at hnew
    use hnew.1
    intro s' hs'
    have hmade : ¬ Made base s' (reportDirPath s.stamped base) := fun h => hnew.2 ⟨s', hs', h⟩
    rw [made_reportDirPath, not_or, not_and, not_and] at hmade
    exact hmade
  · intro h before s after r hstarts hr
    obtain ⟨hdir, rfl⟩ := setupReportDir_ok_iff.mp hr
    obtain ⟨hnew, hearlier⟩ := h before s after hstarts hdir
    rw [Start.reportDir, mem_history, not_or]
    use hnew
    rintro ⟨s', hs', hmade⟩
    rw [made_reportDirPath] at hmade
    rcases hmade with ⟨hbase, heq⟩ | ⟨hdir', heq⟩
    · apply (hearlier s' hs').1 hbase heq
    · apply (hearlier s' hs').2 hdir' heq

/-- Over every history, the runs keep apart only when the directories of the starts are separate,
and then do so when the base directory has no comma. -/
theorem keepsApart (base : Bytes) (fs : List Bytes) (starts : List Start) :
  (KeepsApart base fs starts → Separate base fs starts) ∧
  (Separate base fs starts → chr ',' ∉ base → KeepsApart base fs starts)
  := by
  constructor
  · intro h
    apply (fresh_iff base fs starts).mp h.fresh
  · intro h hcomma
    use (fresh_iff base fs starts).mpr h
    intro before s mid s' after r r' hstarts hr hr'
    obtain ⟨hdir, rfl⟩ := setupReportDir_ok_iff.mp hr
    obtain ⟨hdir', rfl⟩ := setupReportDir_ok_iff.mp hr'
    have hsplit : starts = (before ++ s :: mid) ++ s' :: after := by
      rw [hstarts, List.append_assoc, List.cons_append]
    have hmem : s ∈ before ++ s :: mid := by simp
    have hne := ((h _ s' after hsplit hdir').2 s hmem).2 hdir
    use hne.symm
    apply disjoint_artifacts hcomma hne.symm

/-- The first day of 2026, in a zone without an offset. -/
def firstDay (t : ℤ) : Tm where
  year := 126
  mon := 0
  mday := 1
  hour := Fin.ofNat 24 ((t - 1767225600) / 3600).toNat
  min := Fin.ofNat 60 ((t - 1767225600) / 60).toNat
  sec := Fin.ofNat 61 ((t - 1767225600) % 60).toNat

/-- A start on that day, when nothing is refused. -/
def startAt (t : ℤ) : Start where
  env := newYear
  now := t
  localtime := firstDay
  refuseBase := none
  refuseDir := none
  opens _ := true

/-- Runs of different seconds keep apart. -/
theorem keepsApart_example :
  KeepsApart (ascii "results") [] [startAt 1767225600, startAt 1767225601]
  := by
  apply (keepsApart _ _ _).2
  · intro before s after hstarts _
    use List.not_mem_nil
    intro s' hs'
    rcases before with _ | ⟨first, _ | ⟨second, before⟩⟩
    · cases hs'
    · simp only [List.cons_append, List.nil_append, List.cons.injEq] at hstarts
      obtain ⟨rfl, rfl, -⟩ := hstarts
      obtain rfl := List.mem_singleton.mp hs'
      have hne : reportDirPath (startAt 1767225601).stamped (ascii "results")
          ≠ reportDirPath (startAt 1767225600).stamped (ascii "results") := by
        decide +kernel
      have hbase : reportDirPath (startAt 1767225601).stamped (ascii "results")
          ≠ ascii "results" := by
        decide +kernel
      exact ⟨fun _ => hbase, fun _ => hne⟩
    · have hlen := congrArg List.length hstarts
      simp at hlen
  · decide

/-- Two runs of one second write to the same directory. -/
theorem keepsApart_not :
  ¬ KeepsApart (ascii "results") [] [startAt 1767225600, startAt 1767225600]
  := by
  intro h
  have hok : (setupReportDir (startAt 1767225600)
      (history (ascii "results") [] [startAt 1767225600]) (ascii "results")).2
        = .ok ((startAt 1767225600).reportDir (ascii "results")) := by
    apply setupReportDir_ok_iff.mpr ⟨rfl, rfl⟩
  apply h.fresh [startAt 1767225600] (startAt 1767225600) [] _ rfl hok
  decide +kernel

end Keybench
