import Keybench.Config.Size

/-!
# The command line

`main` reads its arguments twice.  The first pass looks only for the files of `--config` and
`--save-config`, and the `[bench]` section of the config file then sets the knobs of the run
(`applyConfig`).  The second pass reads the flags, each of which sets its own knob
(`setKnob_spec`), so that a knob has the value of the last occurrence of its flag, and the
value it had before when its flag does not occur (`getKnob_applyOpts`).
-/

namespace Keybench

/-! ## The knobs of a run -/

/-- The fields of `config` that the command line or the config file can set. -/
structure RunConfig where
  /-- `ops`. -/
  ops : ℤ := 200000
  /-- `secs`. -/
  secs : Binary64 := .finite 0
  /-- `users`. -/
  users : ℤ := 100000
  /-- `items`. -/
  items : ℤ := 100000
  /-- `seed`. -/
  seed : UInt32 := 1
  /-- `seed_threads`. -/
  seedThreads : Int32 := 0
  /-- `seed_once`. -/
  seedOnce : Int32 := 0
  /-- `pin`. -/
  pin : Int32 := 0
  /-- `timeline`. -/
  timeline : Binary64 := .finite 0
  /-- `backend`. -/
  backend : Option Bytes := none
  /-- `data_dir`. -/
  dataDir : Option Bytes := none
deriving DecidableEq

/-- The variables of `main` that hold what it has read. -/
structure MainArgs where
  /-- `cfg`. -/
  cfg : RunConfig := {}
  /-- `threads_arg`. -/
  threadsArg : Option Bytes := none
  /-- `report_arg`. -/
  reportArg : Option Bytes := none
  /-- `probe_arg`. -/
  probeArg : Option Bytes := none
  /-- `report_dir_arg`. -/
  reportDirArg : Option Bytes := none
  /-- `repeat`. -/
  repeats : Int32 := 1
  /-- `auto_plot`. -/
  autoPlot : Bool := false
  /-- `files`, the workloads of the command line. -/
  files : List Bytes := []
  /-- `cfiles`, the workloads of the config file. -/
  cfiles : List Bytes := []
deriving DecidableEq

/-- The conversion to `unsigned`. -/
def toUnsigned (n : ℤ) : UInt32 := UInt32.ofNat (n % 2 ^ 32).toNat

/-- `apply_config`. -/
def applyConfig (conf : CfgFile) (st : MainArgs) : MainArgs :=
  match cfgSection conf benchName with
  | none => st
  | some o =>
    let b := some o
    { st with
      cfg :=
        { backend := (kvOptStr b (ascii "backend")).or st.cfg.backend
          secs := ((kvOptStr b (ascii "secs")).map atof).getD st.cfg.secs
          timeline := ((kvOptStr b (ascii "timeline")).map atof).getD st.cfg.timeline
          dataDir := (kvOptStr b (ascii "data_dir")).or st.cfg.dataDir
          ops := kvOptInt b (ascii "ops") st.cfg.ops
          users := kvOptInt b (ascii "users") st.cfg.users
          items := kvOptInt b (ascii "items") st.cfg.items
          seed := toUnsigned (kvOptInt b (ascii "seed") st.cfg.seed.toNat)
          seedThreads := Int32.ofInt (kvOptInt b (ascii "seed_threads") st.cfg.seedThreads.toInt)
          seedOnce := Int32.ofInt (kvOptInt b (ascii "seed_once") st.cfg.seedOnce.toInt)
          pin := Int32.ofInt (kvOptInt b (ascii "pin") st.cfg.pin.toInt) }
      threadsArg := (kvOptStr b (ascii "threads")).or st.threadsArg
      reportArg := (kvOptStr b (ascii "report")).or st.reportArg
      repeats := Int32.ofInt (kvOptInt b (ascii "repeat") st.repeats.toInt)
      cfiles := kvOptAll b (ascii "workload") 64 }

/-! ## The arguments -/

/-- The options that name a file of `main` itself. -/
inductive FileOpt
  /-- `--config`. -/
  | config (path : Bytes)
  /-- `--save-config`. -/
  | saveConfig (path : Bytes)
deriving DecidableEq

/-- The file option an argument and its value make. -/
def fileOpt (arg v : Bytes) : Option FileOpt :=
  if arg = ascii "--config" then some (.config v)
  else if arg = ascii "--save-config" then some (.saveConfig v)
  else none

/-- The file of a `--save-config`. -/
def FileOpt.saved : FileOpt → Option Bytes
  | .config _ => none
  | .saveConfig path => some path

/-- The first pass over the arguments. -/
def fileOpts : List Bytes → List FileOpt
  | [] => []
  | [_] => []
  | arg :: v :: rest =>
    match fileOpt arg v with
    | some o => o :: fileOpts rest
    | none => fileOpts (v :: rest)

/-- The options that take a value for the run. -/
inductive Knob
  | ops | secs | threads | seedThreads | repeats | report | reportDir | timeline | probe | dataDir
  | users | items | seed | backend
deriving DecidableEq

/-- The flag of an option. -/
def Knob.flag : Knob → Bytes
  | .ops => ascii "--ops"
  | .secs => ascii "--secs"
  | .threads => ascii "--threads"
  | .seedThreads => ascii "--seed-threads"
  | .repeats => ascii "--repeat"
  | .report => ascii "--report"
  | .reportDir => ascii "--report-dir"
  | .timeline => ascii "--timeline"
  | .probe => ascii "--probe"
  | .dataDir => ascii "--data-dir"
  | .users => ascii "--users"
  | .items => ascii "--items"
  | .seed => ascii "--seed"
  | .backend => ascii "--backend"

/-- The options, in the order of the comparisons. -/
def knobs : List Knob :=
  [.ops, .secs, .threads, .seedThreads, .repeats, .report, .reportDir, .timeline, .probe, .dataDir,
    .users, .items, .seed, .backend]

/-- The options without a value. -/
inductive Switch
  | pin | seedOnce | autoPlot
deriving DecidableEq

/-- The flag of a switch. -/
def Switch.flag : Switch → Bytes
  | .pin => ascii "--pin"
  | .seedOnce => ascii "--seed-once"
  | .autoPlot => ascii "--auto-plot"

/-- The switches, in the order of the comparisons. -/
def switches : List Switch := [.pin, .seedOnce, .autoPlot]

/-- What the second pass reads at one or two arguments. -/
inductive Opt
  /-- A flag with its value. -/
  | knob (k : Knob) (v : Bytes)
  /-- A switch. -/
  | switch (s : Switch)
  /-- An option of the first pass, which is skipped. -/
  | skip (o : FileOpt)
  /-- `-h` or `--help`. -/
  | help
  /-- An unknown option. -/
  | unknown (arg : Bytes)
  /-- A workload. -/
  | file (path : Bytes)
deriving DecidableEq

/-- What an argument and the one after it are read as, when the first is an option with a
value. -/
def pairOpt (arg v : Bytes) : Option Opt :=
  match knobs.find? (fun k => k.flag = arg) with
  | some k => some (.knob k v)
  | none => (fileOpt arg v).map .skip

/-- What an argument is read as on its own. -/
def loneOpt (arg : Bytes) : Opt :=
  match switches.find? (fun s => s.flag = arg) with
  | some s => .switch s
  | none =>
    if arg = ascii "-h" ∨ arg = ascii "--help" then .help
    else if arg.head? = some (chr '-') then .unknown arg
    else .file arg

/-- The second pass over the arguments: an option that takes a value takes the next argument. -/
def mainOpts : List Bytes → List Opt
  | [] => []
  | [arg] => [loneOpt arg]
  | arg :: v :: rest =>
    match pairOpt arg v with
    | some o => o :: mainOpts rest
    | none => loneOpt arg :: mainOpts (v :: rest)

/-! ## Reading the options -/

/-- How `main` ends before there is a run. -/
inductive Exit
  /-- `exit` or `return` with a status. -/
  | status (n : ℕ)
  /-- A null pointer is followed. -/
  | crash
deriving DecidableEq

/-- `arg_long`, without the message. -/
def argLong (s : Bytes) : Option ℤ :=
  let p := strtol s
  if p.rest = s ∨ p.rest ≠ [] ∨ p.range then none else some p.value

/-- `arg_double`, without the message. -/
def argDouble (s : Bytes) : Option Binary64 :=
  let p := strtod s
  if p.rest = s ∨ p.rest ≠ [] ∨ p.range then none else some p.value

/-- Setting the knob of a flag to its value, unless the value is not a number where one is
needed. -/
def setKnob (k : Knob) (v : Bytes) (st : MainArgs) : Option MainArgs :=
  match k with
  | .ops => (argLong v).map (fun n => { st with cfg.ops := n })
  | .secs => (argDouble v).map (fun x => { st with cfg.secs := x })
  | .threads => some { st with threadsArg := some v }
  | .seedThreads => (argLong v).map (fun n => { st with cfg.seedThreads := Int32.ofInt n })
  | .repeats => (argLong v).map (fun n => { st with repeats := Int32.ofInt n })
  | .report => some { st with reportArg := some v }
  | .reportDir => some { st with reportDirArg := some v }
  | .timeline => (argDouble v).map (fun x => { st with cfg.timeline := x })
  | .probe => some { st with probeArg := some v }
  | .dataDir => some { st with cfg.dataDir := some v }
  | .users => (argLong v).map (fun n => { st with cfg.users := n })
  | .items => (argLong v).map (fun n => { st with cfg.items := n })
  | .seed => (argLong v).map (fun n => { st with cfg.seed := toUnsigned n })
  | .backend => some { st with cfg.backend := some v }

/-- Setting a switch. -/
def setSwitch (s : Switch) (st : MainArgs) : MainArgs :=
  match s with
  | .pin => { st with cfg.pin := 1 }
  | .seedOnce => { st with cfg.seedOnce := 1 }
  | .autoPlot => { st with autoPlot := true }

/-- One turn of the second pass. -/
def applyOpt (st : MainArgs) (o : Opt) : Except Exit MainArgs :=
  match o with
  | .knob k v =>
    match setKnob k v st with
    | some st' => .ok st'
    | none => .error (.status 2)
  | .switch s => .ok (setSwitch s st)
  | .skip _ => .ok st
  | .help => .error (.status 0)
  | .unknown _ => .error (.status 2)
  | .file path =>
    .ok (if st.files.length < 64 then { st with files := st.files ++ [path] } else st)

/-- The second pass. -/
def applyOpts (st : MainArgs) (opts : List Opt) : Except Exit MainArgs := opts.foldlM applyOpt st

/-! ## The last flag wins -/

/-- The values of the knobs. -/
inductive KnobValue
  | long (n : ℤ)
  | int (n : Int32)
  | unsigned (n : UInt32)
  | double (x : Binary64)
  | text (s : Bytes)
deriving DecidableEq

/-- The value a flag gives to its knob. -/
def readKnob (k : Knob) (v : Bytes) : Option KnobValue :=
  match k with
  | .ops | .users | .items => (argLong v).map .long
  | .secs | .timeline => (argDouble v).map .double
  | .seedThreads | .repeats => (argLong v).map (fun n => .int (Int32.ofInt n))
  | .seed => (argLong v).map (fun n => .unsigned (toUnsigned n))
  | .threads | .report | .reportDir | .probe | .dataDir | .backend => some (.text v)

/-- The value of a knob. -/
def getKnob (k : Knob) (st : MainArgs) : Option KnobValue :=
  match k with
  | .ops => some (.long st.cfg.ops)
  | .secs => some (.double st.cfg.secs)
  | .threads => st.threadsArg.map .text
  | .seedThreads => some (.int st.cfg.seedThreads)
  | .repeats => some (.int st.repeats)
  | .report => st.reportArg.map .text
  | .reportDir => st.reportDirArg.map .text
  | .timeline => some (.double st.cfg.timeline)
  | .probe => st.probeArg.map .text
  | .dataDir => st.cfg.dataDir.map .text
  | .users => some (.long st.cfg.users)
  | .items => some (.long st.cfg.items)
  | .seed => some (.unsigned st.cfg.seed)
  | .backend => st.cfg.backend.map .text

/-- Whether a switch is on. -/
def switchOn (s : Switch) (st : MainArgs) : Bool :=
  match s with
  | .pin => st.cfg.pin ≠ 0
  | .seedOnce => st.cfg.seedOnce ≠ 0
  | .autoPlot => st.autoPlot

/-- A flag sets its own knob only. -/
theorem setKnob_spec {k : Knob} {v : Bytes} {st st' : MainArgs} (h : setKnob k v st = some st') :
  getKnob k st' = readKnob k v
    ∧ (∀ j, j ≠ k → getKnob j st' = getKnob j st)
    ∧ ∀ s, switchOn s st' = switchOn s st
  := by
  cases k
  all_goals
    simp only [setKnob, Option.some.injEq, Option.map_eq_some_iff] at h
    obtain ⟨n, hn, rfl⟩ := h
    and_intros
    · first | rfl | (simp only [readKnob, hn]; rfl)
    · intro j hj
      cases j <;> first | rfl | exact absurd rfl hj
    · intro s
      cases s <;> rfl

/-- A switch sets itself only. -/
theorem setSwitch_spec (s : Switch) (st : MainArgs) :
  switchOn s (setSwitch s st) = true
    ∧ (∀ t, t ≠ s → switchOn t (setSwitch s st) = switchOn t st)
    ∧ ∀ k, getKnob k (setSwitch s st) = getKnob k st
  := by
  cases s
  all_goals
    and_intros
    · rfl
    · intro t ht
      cases t <;> first | rfl | exact absurd rfl ht
    · intro k
      cases k <;> rfl

/-- The value of an option, when it is the one asked for. -/
def Opt.valueOf (k : Knob) : Opt → Option Bytes
  | .knob j v => if j = k then some v else none
  | _ => none

/-- The value of the last occurrence of a flag. -/
def lastValue (k : Knob) (opts : List Opt) : Option Bytes :=
  (opts.filterMap (Opt.valueOf k)).getLast?

/-- What one option does to the knobs and switches. -/
theorem applyOpt_spec {st st' : MainArgs} {o : Opt} (h : applyOpt st o = .ok st') :
  (∀ k, getKnob k st' = ((o.valueOf k).map (readKnob k)).getD (getKnob k st))
    ∧ ∀ s, switchOn s st' = (switchOn s st || decide (o = .switch s))
  := by
  cases o with
  | knob j v =>
    rw [applyOpt] at h
    cases hset : setKnob j v st with
    | none => simp [hset] at h
    | some st₁ =>
      rw [hset] at h
      obtain rfl := Except.ok.inj h
      obtain ⟨hval, hother, hswitch⟩ := setKnob_spec hset
      constructor
      · intro k
        rw [Opt.valueOf]
        split_ifs with hjk
        · rw [← hjk]
          apply hval
        · apply hother k (Ne.symm hjk)
      · intro s
        rw [hswitch s]
        simp
  | switch t =>
    obtain rfl := Except.ok.inj h
    obtain ⟨hon, hother, hknobs⟩ := setSwitch_spec t st
    constructor
    · intro k
      apply hknobs k
    · intro s
      by_cases hst : s = t
      · rw [hst, hon]
        simp
      · rw [hother s hst]
        simp [Ne.symm hst]
  | skip f =>
    obtain rfl := Except.ok.inj h
    simp [Opt.valueOf]
  | help => cases h
  | unknown arg => cases h
  | file path =>
    obtain rfl := Except.ok.inj h
    constructor
    · intro k
      split_ifs
      · cases k <;> rfl
      · rfl
    · intro s
      split_ifs
      · cases s <;> simp [switchOn]
      · simp

/-- After the second pass a knob has the value of the last occurrence of its flag. -/
theorem applyOpts_spec {st st' : MainArgs} {opts : List Opt} (h : applyOpts st opts = .ok st') :
  (∀ k, getKnob k st' = ((lastValue k opts).map (readKnob k)).getD (getKnob k st))
    ∧ ∀ s, switchOn s st' = (switchOn s st || decide (.switch s ∈ opts))
  := by
  induction opts using List.reverseRecOn generalizing st' with
  | nil =>
    obtain rfl := Except.ok.inj h
    simp [lastValue]
  | append_singleton opts o ih =>
    rw [applyOpts, List.foldlM_append] at h
    cases hfold : opts.foldlM applyOpt st with
    | error e =>
      rw [hfold] at h
      cases h
    | ok st₁ =>
      rw [hfold] at h
      have hlast : applyOpt st₁ o = .ok st' := by
        rw [← h]
        cases happly : applyOpt st₁ o <;> simp [Bind.bind, Except.bind, Pure.pure, Except.pure, happly]
      obtain ⟨hk₁, hs₁⟩ := ih hfold
      obtain ⟨hk, hs⟩ := applyOpt_spec hlast
      constructor
      · intro k
        rw [hk k, lastValue, List.filterMap_append]
        cases hv : o.valueOf k with
        | none => simp [hv, hk₁ k, lastValue]
        | some v => simp [hv]
      · intro s
        rw [hs s, hs₁ s, Bool.or_assoc]
        simp [eq_comm]

end Keybench
