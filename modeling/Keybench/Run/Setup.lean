import Keybench.Run.Save

/-!
# From the command line to a run

`main` up to the point where the reporters are opened: it reads the arguments and the config
file, settles every knob of the run, and writes the replay file.
-/

namespace Keybench

/-- The engines of the repository. -/
inductive Backend
  | skiplist | rocksdb | tidesdb
deriving DecidableEq

/-- The name an engine is registered under. -/
def Backend.name : Backend → Bytes
  | .skiplist => ascii "skiplist"
  | .rocksdb => ascii "rocksdb"
  | .tidesdb => ascii "tidesdb"

/-- Whether an engine stores its data on disk. -/
def Backend.persistent : Backend → Bool
  | .skiplist => false
  | .rocksdb => true
  | .tidesdb => true

/-- What `main` finds when it starts. -/
structure Environment where
  /-- The registered engines, in order of registration. -/
  backends : List Backend
  /-- The names of the registered probes, in order of registration. -/
  probes : List Bytes
  /-- The contents of a file that can be opened. -/
  readFile : Bytes → Option Bytes
  /-- The time stamp of a report directory. -/
  stamp : Bytes
  /-- Whether a report directory can be created or exists. -/
  mkdir : Bytes → Bool

/-! ## Lists -/

/-- The tokens of `strtok` with a comma. -/
def strtokComma (s : Bytes) : List Bytes := (s.splitOn (chr ',')).filter (fun t => t ≠ [])

/-- `parse_int_list`, with room for `max` numbers. -/
def parseIntList (s : Bytes) : ℕ → List Int32
  | 0 => []
  | max + 1 =>
    let p := strtol s
    if s = [] ∨ p.rest = s then []
    else
      (if p.value < 1 then 1 else Int32.ofInt p.value)
        :: parseIntList (if p.rest.head? = some (chr ',') then p.rest.tail else p.rest) max

/-- `backend_find` of a name. -/
def backendFind (env : Environment) (name : Bytes) : Option Backend :=
  env.backends.find? (fun b => b.name = name)

/-- `backend_find (NULL)`. -/
def backendDefault (env : Environment) : Option Backend :=
  (backendFind env (ascii "skiplist")).or env.backends.head?

/-- The engines of a run. -/
def engineList (env : Environment) (backend : Option Bytes) : Except Exit (List Backend) :=
  match ((backend.map (fun s => strtokComma (snprintfStr 256 s))).getD []).take 16 with
  | [] =>
    match backendDefault env with
    | some b => .ok [b]
    | none => .error .crash
  | names =>
    match names.mapM (backendFind env) with
    | some bs => .ok bs
    | none => .error (.status 2)

/-- The thread counts of a run. -/
def threadList (threadsArg : Option Bytes) : List Int32 :=
  match threadsArg with
  | some s => if parseIntList s 64 = [] then [1] else parseIntList s 64
  | none => [1]

/-- The probes of a run. -/
def probeList (env : Environment) (probeArg : Option Bytes) : List Bytes :=
  match probeArg with
  | none => env.probes
  | some s =>
    if s = ascii "none" then []
    else ((strtokComma (snprintfStr 256 s)).filter (fun t => t ∈ env.probes)).take 32

/-! ## The report directory -/

/-- The directory of `setup_report_dir`. -/
def reportDirPath (env : Environment) (base : Bytes) : Bytes :=
  snprintfStr 600 (base ++ ascii "/" ++ env.stamp)

/-- The report spec of `setup_report_dir`. -/
def reportDirSpec (env : Environment) (base : Bytes) : Bytes :=
  let dir := reportDirPath env base
  snprintfStr 2400 (ascii "console,console:" ++ dir ++ ascii "/report.txt,tsv:" ++ dir
    ++ ascii "/points.tsv,timeline:" ++ dir ++ ascii "/timeline.tsv")

/-- The replay path of `setup_report_dir`. -/
def reportDirReplay (env : Environment) (base : Bytes) : Bytes :=
  snprintfStr 700 (reportDirPath env base ++ ascii "/replay.cnf")

/-! ## The run -/

/-- The first pass over the arguments: the config file loaded last, and the path of the last
`--save-config`. -/
def firstPass (env : Environment) (opts : List FileOpt) : Except Exit (Option CfgFile) :=
  opts.foldlM
    (fun conf o =>
      match o with
      | .config path =>
        match env.readFile path with
        | some text => .ok (some (cfgLoad text))
        | none => .error (.status 2)
      | .saveConfig _ => .ok conf)
    none

/-- The path of the last `--save-config`. -/
def lastSaved (opts : List FileOpt) : Option Bytes := (opts.filterMap FileOpt.saved).getLast?

/-- The `[bench]` section of the config file. -/
def benchSection (conf : Option CfgFile) : Option KvOptions :=
  conf.bind (fun c => cfgSection c benchName)

/-- A run that `main` starts, and the replay file it has written. -/
structure Run where
  /-- The knobs of `cfg`. -/
  cfg : RunConfig
  /-- `engines`. -/
  engines : List Backend
  /-- `tlist`. -/
  threads : List Int32
  /-- `repeat`. -/
  repeats : Int32
  /-- `report_arg`. -/
  report : Option Bytes
  /-- `report_dir_arg`. -/
  reportDir : Option Bytes
  /-- The selected probes. -/
  probes : List Bytes
  /-- `auto_plot`. -/
  autoPlot : Bool
  /-- `wl`, the workloads. -/
  workloads : List Bytes
  /-- The path and contents of the replay file. -/
  saved : Option (Bytes × Bytes)

/-- The knobs of `cfg` after the second pass: a time bound takes the place of the count. -/
def boundCfg (cfg : RunConfig) : RunConfig := if cfg.secs.Positive then { cfg with ops := 0 } else cfg

/-- The workloads of a run: those of the command line, or else those of the config file. -/
def workloadList (st : MainArgs) : List Bytes := if st.files = [] then st.cfiles else st.files

/-- `repeat` is at least one. -/
def atLeastOne (n : Int32) : Int32 := if n < 1 then 1 else n

/-- The report directory of a run. -/
def runReportDir (conf : Option CfgFile) (st : MainArgs) : Option Bytes :=
  st.reportDirArg.or (kvOptStr (benchSection conf) (ascii "report_dir"))

/-- What a run passes to `save_config`, for a path. -/
def Run.saveArgs (run : Run) (st : MainArgs) (path : Bytes) : SaveArgs :=
  { path, cfg := run.cfg
    engines := st.cfg.backend.getD ((run.engines.head?.map Backend.name).getD [])
    threads := st.threadsArg.getD (ascii "1"), repeats := run.repeats, report := run.report
    reportDir := run.reportDir, files := run.workloads }

/-- The run that `main` makes of what it has read, before it writes the replay file. -/
def makeRun (env : Environment) (conf : Option CfgFile) (st : MainArgs) (engines : List Backend) :
    Run :=
  { cfg := boundCfg st.cfg
    engines
    threads := threadList st.threadsArg
    repeats := atLeastOne st.repeats
    report := ((runReportDir conf st).map (reportDirSpec env)).or st.reportArg
    reportDir := runReportDir conf st
    probes := probeList env (st.probeArg.or (kvOptStr (benchSection conf) (ascii "probe")))
    autoPlot := st.autoPlot
      || Int32.ofInt (kvOptInt (benchSection conf) (ascii "auto_plot") 0) ≠ 0
    workloads := workloadList st
    saved := none }

/-- The path of the replay file. -/
def savePath (env : Environment) (run : Run) (saveArg : Option Bytes) : Option Bytes :=
  (run.reportDir.map (reportDirReplay env)).or saveArg

/-- The run with its replay file written. -/
def saveRun (env : Environment) (conf : Option CfgFile) (saveArg : Option Bytes) (st : MainArgs)
    (run : Run) : Run :=
  { run with
    saved := (savePath env run saveArg).map
      (fun path => (path, saveConfig (run.saveArgs st path) conf)) }

/-- Whether `main` stops before a run: a persistent engine has no directory, or the report
directory cannot be created. -/
def refused (env : Environment) (run : Run) : Bool :=
  (run.engines.any Backend.persistent && run.cfg.dataDir.getD [] = [])
    || run.reportDir.any (fun base => ! env.mkdir (reportDirPath env base))

/-- `main` after the second pass. -/
def startRun (env : Environment) (conf : Option CfgFile) (saveArg : Option Bytes) (st : MainArgs) :
    Except Exit Run :=
  if workloadList st = [] then .error (.status 2)
  else
    match engineList env st.cfg.backend with
    | .error e => .error e
    | .ok engines =>
      let run := makeRun env conf st engines
      if refused env run then .error (.status 2)
      else .ok (saveRun env conf saveArg st run)

/-- `main` up to the reporters, on the arguments after the program name. -/
def main (env : Environment) (args : List Bytes) : Except Exit Run :=
  match firstPass env (fileOpts args) with
  | .error e => .error e
  | .ok conf =>
    match applyOpts ((conf.map (fun c => applyConfig c {})).getD {}) (mainOpts args) with
    | .error e => .error e
    | .ok st => startRun env conf (lastSaved (fileOpts args)) st

/-- The bound changes only the count. -/
theorem boundCfg_eq (cfg : RunConfig) :
  boundCfg cfg = { cfg with ops := if cfg.secs.Positive then 0 else cfg.ops }
  := by
  rw [boundCfg]
  split_ifs
  · rfl
  · rfl

/-! ## When there is a run -/

/-- `main` starts a run exactly when it is not refused. -/
theorem startRun_ok_iff {env : Environment} {conf : Option CfgFile} {saveArg : Option Bytes}
    {st : MainArgs} {run : Run} :
  startRun env conf saveArg st = .ok run
    ↔ ∃ engines, workloadList st ≠ []
      ∧ engineList env st.cfg.backend = .ok engines
      ∧ refused env (makeRun env conf st engines) = false
      ∧ run = saveRun env conf saveArg st (makeRun env conf st engines)
  := by
  rw [startRun]
  constructor
  · intro h
    split_ifs at h with hw
    cases he : engineList env st.cfg.backend with
    | error e => simp [he] at h
    | ok engines =>
      simp only [he] at h
      split_ifs at h with hr
      use engines
      and_intros
      · exact hw
      · rfl
      · simpa using hr
      · apply (Except.ok.inj h).symm
  · rintro ⟨engines, hw, he, hr, rfl⟩
    rw [if_neg hw, he]
    simp [hr]

/-- The state in which the second pass starts. -/
def configured (conf : Option CfgFile) : MainArgs := (conf.map (fun c => applyConfig c {})).getD {}

/-- What the steps of `main` have given when there is a run. -/
theorem main_ok_iff {env : Environment} {args : List Bytes} {run : Run} :
  main env args = .ok run
    ↔ ∃ conf st, firstPass env (fileOpts args) = .ok conf
      ∧ applyOpts (configured conf) (mainOpts args) = .ok st
      ∧ startRun env conf (lastSaved (fileOpts args)) st = .ok run
  := by
  rw [main]
  constructor
  · intro h
    cases hconf : firstPass env (fileOpts args) with
    | error e => simp [hconf] at h
    | ok conf =>
      simp only [hconf] at h
      cases hst : applyOpts ((conf.map (fun c => applyConfig c {})).getD {}) (mainOpts args) with
      | error e => simp [hst] at h
      | ok st =>
        simp only [hst] at h
        exact ⟨conf, st, rfl, hst, h⟩
  · rintro ⟨conf, st, hconf, hst, hrun⟩
    rw [configured] at hst
    simp [hconf, hst, hrun]

end Keybench
