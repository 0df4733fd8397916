import Keybench.Run.Setup

/-!
# The sinks of a report directory

`reporters_parse` splits the report spec at commas and each part at its first colon.  The spec
that `setup_report_dir` builds names the console and three files of the report directory; it is
read back as these four sinks exactly when the path of the directory has no comma
(`dirSinks_iff`).
-/

namespace Keybench

/-- The kinds of reporters. -/
inductive SinkKind
  | console | tsv | timeline
deriving DecidableEq, Repr

/-- `reporter`: its kind and the file it prints to, `stdout` when there is none. -/
structure Sink where
  /-- `name`. -/
  kind : SinkKind
  /-- The path of `out`. -/
  out : Option Bytes
deriving DecidableEq, Repr

/-- `REPORT_MAX_SINKS`. -/
def reportMaxSinks : ℕ := 8

/-- `make_reporter`. -/
def makeReporter (name : Bytes) : Option SinkKind :=
  if name = ascii "console" then some .console
  else if name = ascii "tsv" then some .tsv
  else if name = ascii "timeline" then some .timeline
  else none

/-- The name and the path in a token of the spec. -/
def sinkToken (tok : Bytes) : Bytes × Option Bytes :=
  match Text.splitFirst (chr ':') tok with
  | some (name, path) => (name, some path)
  | none => (tok, none)

/-- The file that a token names; a single dash stands for `stdout`. -/
def sinkFile (tok : Bytes) : Option Bytes := (sinkToken tok).2.filter (fun p => p ≠ ascii "-")

/-- What `reporters_parse` has done: the files that it opened for writing, and the sinks or the
line on `stderr`. -/
structure SinksParsed where
  /-- The opened files. -/
  opened : List Bytes
  /-- The sinks. -/
  sinks : Except Bytes (List Sink)
deriving DecidableEq

/-- One turn of the loop of `reporters_parse`. -/
def parseSink (opens : Bytes → Bool) (tok : Bytes) (st : SinksParsed) (sinks : List Sink) :
    SinksParsed :=
  if sinks.length ≥ reportMaxSinks then { st with sinks := .error (ascii "too many reporters\n") }
  else if (sinkFile tok).any (fun p => !opens p) then
    { st with
      sinks := .error (ascii "cannot open report file '" ++ (sinkFile tok).getD [] ++ ascii "'\n") }
  else
    let opened := st.opened ++ (sinkFile tok).toList
    match makeReporter (sinkToken tok).1 with
    | some kind => ⟨opened, .ok (sinks ++ [⟨kind, sinkFile tok⟩])⟩
    | none =>
      ⟨opened, .error (ascii "unknown reporter '" ++ (sinkToken tok).1
        ++ ascii "' (have: console, tsv, timeline)\n")⟩

/-- The loop of `reporters_parse` over the tokens. -/
def parseSinks (opens : Bytes → Bool) : List Bytes → SinksParsed → SinksParsed
  | [], st => st
  | tok :: toks, st =>
    match st.sinks with
    | .ok sinks => parseSinks opens toks (parseSink opens tok st sinks)
    | .error _ => st

/-- `reporters_parse`, when `fopen` opens the files that satisfy `opens`. -/
def reportersParse (opens : Bytes → Bool) (spec : Option Bytes) : SinksParsed :=
  let st := parseSinks opens (strtokComma (spec.getD (ascii "console"))) ⟨[], .ok []⟩
  if st.sinks = .ok [] then { st with sinks := .ok [⟨.console, none⟩] } else st

/-! ## The spec of a report directory -/

/-- The files of a report directory that reporters write. -/
def reportFiles (dir : Bytes) : List Bytes :=
  [dir ++ ascii "/report.txt", dir ++ ascii "/points.tsv", dir ++ ascii "/timeline.tsv"]

/-- The sinks of a report directory. -/
def dirSinks (dir : Bytes) : List Sink :=
  [⟨.console, none⟩, ⟨.console, some (dir ++ ascii "/report.txt")⟩,
    ⟨.tsv, some (dir ++ ascii "/points.tsv")⟩, ⟨.timeline, some (dir ++ ascii "/timeline.tsv")⟩]

/-- The parts of the spec of a report directory. -/
def specParts (dir : Bytes) : List Bytes :=
  [ascii "console", ascii "console" ++ chr ':' :: (dir ++ ascii "/report.txt"),
    ascii "tsv" ++ chr ':' :: (dir ++ ascii "/points.tsv"),
    ascii "timeline" ++ chr ':' :: (dir ++ ascii "/timeline.tsv")]

/-- A report directory fits its buffer. -/
theorem length_reportDirPath (env : Environment) (base : Bytes) :
  (reportDirPath env base).length ≤ 599
  := by
  apply List.length_take_le

/-- The spec fits its buffer, and is made of its parts. -/
theorem reportDirSpec_eq (env : Environment) (base : Bytes) :
  reportDirSpec env base = (ascii ",").intercalate (specParts (reportDirPath env base))
  := by
  have hlen := length_reportDirPath env base
  have hconsole : ascii "console,console:" = ascii "console" ++ ascii "," ++ ascii "console:" := by
    decide
  have hreport : ascii "/report.txt,tsv:" = ascii "/report.txt" ++ ascii "," ++ ascii "tsv:" := by
    decide
  have hpoints : ascii "/points.tsv,timeline:"
      = ascii "/points.tsv" ++ ascii "," ++ ascii "timeline:" := by
    decide
  have hcolon : ascii "console:" = ascii "console" ++ [chr ':'] ∧
      ascii "tsv:" = ascii "tsv" ++ [chr ':'] ∧
      ascii "timeline:" = ascii "timeline" ++ [chr ':'] := by
    decide
  obtain ⟨hc, ht, hl⟩ := hcolon
  rw [reportDirSpec, snprintfStr, List.take_of_length_le]
  · rw [hconsole, hreport, hpoints, hc, ht, hl]
    simp [specParts, List.intercalate_cons_cons]
  · have hnums : (ascii "console,console:").length = 16 ∧ (ascii "/report.txt,tsv:").length = 16
        ∧ (ascii "/points.tsv,timeline:").length = 21 ∧ (ascii "/timeline.tsv").length = 13 := by
      decide
    simp only [List.length_append, hnums]
    omega

/-- A token with a name and a path. -/
theorem sinkToken_append {name : Bytes} (h : chr ':' ∉ name) (path : Bytes) :
  sinkToken (name ++ chr ':' :: path) = (name, some path)
  := by
  rw [sinkToken, Text.splitFirst_append path h]

/-! ## What the parser accepts -/

/-- The sink of a token. -/
def tokenSink (tok : Bytes) : Option Sink :=
  (makeReporter (sinkToken tok).1).map (fun kind => ⟨kind, sinkFile tok⟩)

/-- The parser stops at an error. -/
theorem parseSinks_error {st : SinksParsed} {e : Bytes} (h : st.sinks = .error e)
    (opens : Bytes → Bool) (toks : List Bytes) :
  parseSinks opens toks st = st
  := by
  cases toks with
  | nil => rfl
  | cons tok toks => rw [parseSinks, h]

/-- A turn gives a sink for the token when there is room for it, its file opens and its name is
known. -/
theorem parseSink_ok_iff {opens : Bytes → Bool} {tok : Bytes} (st : SinksParsed)
    {sinks result : List Sink} :
  (parseSink opens tok st sinks).sinks = .ok result
    ↔ sinks.length < reportMaxSinks ∧ (∀ p ∈ sinkFile tok, opens p = true) ∧
      ∃ sink, tokenSink tok = some sink ∧ result = sinks ++ [sink]
  := by
  rw [parseSink, tokenSink]
  by_cases hfull : sinks.length ≥ reportMaxSinks
  · rw [if_pos hfull]
    simp [Nat.not_lt.mpr hfull]
  · rw [if_neg hfull]
    have hroom : sinks.length < reportMaxSinks := Nat.lt_of_not_le hfull
    by_cases hopen : ∀ p ∈ sinkFile tok, opens p = true
    · have hany : (sinkFile tok).any (fun p => !opens p) = false := by
        cases h : sinkFile tok with
        | none => rfl
        | some p => simp [hopen p h]
      rw [if_neg (by simp [hany])]
      cases makeReporter (sinkToken tok).1 with
      | none => simp
      | some kind =>
        constructor
        · intro h
          exact ⟨hroom, hopen, _, rfl, (Except.ok.inj h).symm⟩
        · rintro ⟨-, -, sink, hsink, rfl⟩
          rw [← Option.some_inj.mp hsink]
    · have hany : (sinkFile tok).any (fun p => !opens p) = true := by
        cases h : sinkFile tok with
        | none => simp [h] at hopen
        | some p => simpa [h] using hopen
      rw [if_pos hany]
      constructor
      · intro h
        cases h
      · intro h
        exact absurd h.2.1 hopen

/-- The parser gives the sinks of the tokens when there is room for them, their files open and
their names are known. -/
theorem parseSinks_ok_iff {opens : Bytes → Bool} {toks : List Bytes} {st : SinksParsed}
    {sinks result : List Sink} (hst : st.sinks = .ok sinks)
    (hroom : sinks.length ≤ reportMaxSinks) :
  (parseSinks opens toks st).sinks = .ok result
    ↔ sinks.length + toks.length ≤ reportMaxSinks ∧
      (∀ tok ∈ toks, ∀ p ∈ sinkFile tok, opens p = true) ∧
      ∃ new, toks.mapM tokenSink = some new ∧ result = sinks ++ new
  := by
  induction toks generalizing st sinks with
  | nil =>
    rw [parseSinks, hst]
    constructor
    · intro h
      rw [← Except.ok.inj h]
      exact ⟨hroom, by simp, [], rfl, by simp⟩
    · rintro ⟨-, -, new, hnew, rfl⟩
      obtain rfl := Option.some_inj.mp hnew
      simp
  | cons tok toks ih =>
    rw [parseSinks, hst]
    dsimp only
    cases hnext : (parseSink opens tok st sinks).sinks with
    | error e =>
      rw [parseSinks_error hnext, hnext]
      constructor
      · intro h
        cases h
      · rintro ⟨hlen, hopen, new, hnew, -⟩
        obtain ⟨sink, rest, hsink, -, -⟩ := Text.mapM_cons_eq_some.mp hnew
        rw [List.length_cons] at hlen
        have hlt : sinks.length < reportMaxSinks := by omega
        have hok := (parseSink_ok_iff st).mpr
          ⟨hlt, hopen tok List.mem_cons_self, sink, hsink, rfl⟩
        rw [hnext] at hok
        cases hok
    | ok mid =>
      obtain ⟨hlt, hopen, sink, hsink, rfl⟩ := (parseSink_ok_iff st).mp hnext
      have hmid : (sinks ++ [sink]).length ≤ reportMaxSinks := by
        rw [List.length_append, List.length_singleton]
        omega
      rw [ih hnext hmid, List.length_append, List.length_singleton, List.length_cons,
        List.forall_mem_cons]
      constructor
      · rintro ⟨hlen, hopens, new, hnew, rfl⟩
        have hcons := Text.mapM_cons_eq_some.mpr ⟨sink, new, hsink, hnew, rfl⟩
        exact ⟨by omega, ⟨hopen, hopens⟩, sink :: new, hcons, by simp⟩
      · rintro ⟨hlen, ⟨-, hopens⟩, new, hnew, rfl⟩
        obtain ⟨sink', rest, hsink', hrest, rfl⟩ := Text.mapM_cons_eq_some.mp hnew
        rw [hsink] at hsink'
        obtain rfl := Option.some_inj.mp hsink'
        exact ⟨by omega, hopens, rest, hrest, by simp⟩

/-! ## Reading the spec of a report directory -/

/-- The tokens of the spec of a directory without a comma. -/
theorem strtokComma_spec {env : Environment} {base : Bytes}
    (h : chr ',' ∉ reportDirPath env base) :
  strtokComma (reportDirSpec env base) = specParts (reportDirPath env base)
  := by
  have hparts : ∀ part ∈ specParts (reportDirPath env base), chr ',' ∉ part := by
    have hnames : ∀ name ∈ [ascii "console", ascii "tsv", ascii "timeline", ascii "/report.txt",
        ascii "/points.tsv", ascii "/timeline.tsv"], chr ',' ∉ name := by
      decide
    have hcolon : chr ',' ≠ chr ':' := by decide
    simp only [List.forall_mem_cons] at hnames
    simp [specParts, List.mem_append, hnames, h, hcolon]
  have hsplit : (reportDirSpec env base).splitOn (chr ',')
      = specParts (reportDirPath env base) := by
    rw [reportDirSpec_eq]
    apply List.splitOn_intercalate (chr ',') hparts
    simp [specParts]
  have hnonempty : ∀ part ∈ specParts (reportDirPath env base), part ≠ [] := by
    simp [specParts, ascii]
  rw [strtokComma, hsplit, List.filter_eq_self]
  intro part hpart
  simpa using hnonempty part hpart

/-- The first tokens of the spec of a directory with a comma. -/
theorem strtokComma_spec_comma {env : Environment} {base a b : Bytes}
    (h : reportDirPath env base = a ++ chr ',' :: b) (ha : chr ',' ∉ a) :
  ∃ toks, strtokComma (reportDirSpec env base)
    = ascii "console" :: (ascii "console" ++ chr ':' :: a) :: toks
  := by
  have hconsole : chr ',' ∉ ascii "console" := by decide
  have htoken : chr ',' ∉ ascii "console" ++ chr ':' :: a := by
    have hcolon : chr ',' ≠ chr ':' := by decide
    simp [hconsole, hcolon, ha]
  obtain ⟨rest, hrest⟩ : ∃ rest, reportDirSpec env base
      = ascii "console" ++ chr ',' :: ((ascii "console" ++ chr ':' :: a) ++ chr ',' :: rest) := by
    rw [reportDirSpec_eq, h]
    simp [specParts, List.intercalate_cons_cons, ascii, chr]
  use (rest.splitOn (chr ',')).filter (fun t => t ≠ [])
  rw [strtokComma, hrest, List.splitOn_append_cons_self_of_not_mem hconsole,
    List.splitOn_append_cons_self_of_not_mem htoken, List.filter_cons_of_pos (by decide),
    List.filter_cons_of_pos (by simp)]

/-- The file of a token with a path. -/
theorem sinkFile_append {name path : Bytes} (hname : chr ':' ∉ name) (hpath : path ≠ ascii "-") :
  sinkFile (name ++ chr ':' :: path) = some path
  := by
  rw [sinkFile, sinkToken_append hname]
  simp [hpath]

/-- The sink of a token with a known name and a path. -/
theorem tokenSink_append {name path : Bytes} {kind : SinkKind} (hname : chr ':' ∉ name)
    (hkind : makeReporter name = some kind) (hpath : path ≠ ascii "-") :
  tokenSink (name ++ chr ':' :: path) = some ⟨kind, some path⟩
  := by
  rw [tokenSink, sinkFile_append hname hpath, sinkToken_append hname, hkind, Option.map_some]

/-- A file of a directory is not a single dash. -/
theorem append_ne_dash (dir : Bytes) {file : Bytes} (h : 1 < file.length) :
  dir ++ file ≠ ascii "-"
  := by
  intro heq
  have hlen := congrArg List.length heq
  have hdash : (ascii "-").length = 1 := rfl
  rw [List.length_append, hdash] at hlen
  omega

/-- The sinks of the parts of the spec. -/
theorem mapM_specParts (dir : Bytes) :
  (specParts dir).mapM tokenSink = some (dirSinks dir)
  := by
  have hconsole : tokenSink (ascii "console") = some ⟨.console, none⟩ := by decide
  have hreport := tokenSink_append (by decide : chr ':' ∉ ascii "console") rfl
    (append_ne_dash dir (by decide : 1 < (ascii "/report.txt").length))
  have hpoints := tokenSink_append (by decide : chr ':' ∉ ascii "tsv") rfl
    (append_ne_dash dir (by decide : 1 < (ascii "/points.tsv").length))
  have htimeline := tokenSink_append (by decide : chr ':' ∉ ascii "timeline") rfl
    (append_ne_dash dir (by decide : 1 < (ascii "/timeline.tsv").length))
  simp only [specParts, List.mapM_cons, List.mapM_nil, hconsole, hreport, hpoints, htimeline]
  rfl

/-- The files of the parts of the spec. -/
theorem flatMap_specParts (dir : Bytes) :
  (specParts dir).flatMap (fun tok => (sinkFile tok).toList) = reportFiles dir
  := by
  have hconsole : sinkFile (ascii "console") = none := by decide
  have hreport := sinkFile_append (by decide : chr ':' ∉ ascii "console")
    (append_ne_dash dir (by decide : 1 < (ascii "/report.txt").length))
  have hpoints := sinkFile_append (by decide : chr ':' ∉ ascii "tsv")
    (append_ne_dash dir (by decide : 1 < (ascii "/points.tsv").length))
  have htimeline := sinkFile_append (by decide : chr ':' ∉ ascii "timeline")
    (append_ne_dash dir (by decide : 1 < (ascii "/timeline.tsv").length))
  simp only [specParts, List.flatMap_cons, List.flatMap_nil, hconsole, hreport, hpoints, htimeline]
  rfl

/-- The sinks of a directory are read exactly when the tokens of the spec are theirs. -/
theorem reportersParse_ok_iff (opens : Bytes → Bool) (spec dir : Bytes) :
  (reportersParse opens (some spec)).sinks = .ok (dirSinks dir)
    ↔ (∀ tok ∈ strtokComma spec, ∀ p ∈ sinkFile tok, opens p = true) ∧
      (strtokComma spec).mapM tokenSink = some (dirSinks dir)
  := by
  have hroom : ([] : List Sink).length ≤ reportMaxSinks := Nat.zero_le _
  have hresult : (reportersParse opens (some spec)).sinks = .ok (dirSinks dir)
      ↔ (parseSinks opens (strtokComma spec) ⟨[], .ok []⟩).sinks = .ok (dirSinks dir) := by
    rw [reportersParse, Option.getD_some]
    split_ifs with hempty
    · rw [hempty]
      simp [dirSinks]
    · exact Iff.rfl
  rw [hresult, parseSinks_ok_iff rfl hroom]
  constructor
  · rintro ⟨-, hopens, new, hnew, heq⟩
    rw [List.nil_append] at heq
    rw [heq]
    exact ⟨hopens, hnew⟩
  · rintro ⟨hopens, hnew⟩
    have hlen : (strtokComma spec).length = 4 := by
      rw [← Text.length_of_mapM hnew]
      rfl
    refine ⟨?_, hopens, _, hnew, rfl⟩
    rw [hlen]
    decide

/-- The second sink of the spec of a directory with a comma prints to a file without one. -/
theorem mapM_tokenSink_ne {env : Environment} {base : Bytes}
    (hcomma : chr ',' ∈ reportDirPath env base) :
  (strtokComma (reportDirSpec env base)).mapM tokenSink
    ≠ some (dirSinks (reportDirPath env base))
  := by
  intro hnew
  obtain ⟨a, b, hpath, ha⟩ := List.eq_append_cons_of_mem hcomma
  obtain ⟨toks, htoks⟩ := strtokComma_spec_comma hpath ha
  rw [htoks] at hnew
  obtain ⟨first, rest, -, hrest, hfirst⟩ := Text.mapM_cons_eq_some.mp hnew
  obtain ⟨second, rest', hsecond, -, hcons⟩ := Text.mapM_cons_eq_some.mp hrest
  rw [hcons, dirSinks, List.cons.injEq, List.cons.injEq] at hfirst
  rw [← hfirst.2.1, tokenSink, sinkFile, sinkToken_append (by decide)] at hsecond
  obtain ⟨kind, -, hsink⟩ := Option.map_eq_some_iff.mp hsecond
  have hfile := (Sink.mk.inj hsink).2
  dsimp only at hfile
  rw [Option.filter_some] at hfile
  split_ifs at hfile
  rw [Option.some_inj] at hfile
  apply ha
  rw [hfile]
  apply List.mem_append_left _ hcomma

/-- The spec of a report directory is read as its four sinks exactly when the path of the
directory has no comma and its files open. -/
theorem dirSinks_iff (env : Environment) (base : Bytes) (opens : Bytes → Bool) :
  (reportersParse opens (some (reportDirSpec env base))).sinks
      = .ok (dirSinks (reportDirPath env base))
    ↔ chr ',' ∉ reportDirPath env base ∧
      ∀ file ∈ reportFiles (reportDirPath env base), opens file = true
  := by
  rw [reportersParse_ok_iff]
  by_cases hcomma : chr ',' ∈ reportDirPath env base
  · constructor
    · rintro ⟨-, hnew⟩
      exact absurd hnew (mapM_tokenSink_ne hcomma)
    · rintro ⟨hno, -⟩
      exact absurd hcomma hno
  · rw [strtokComma_spec hcomma]
    constructor
    · rintro ⟨hopens, -⟩
      use hcomma
      intro file hfile
      rw [← flatMap_specParts] at hfile
      obtain ⟨tok, htok, hmem⟩ := List.mem_flatMap.mp hfile
      apply hopens tok htok file (Option.mem_toList.mp hmem)
    · rintro ⟨-, hopens⟩
      constructor
      · intro tok htok p hp
        apply hopens
        rw [← flatMap_specParts]
        apply List.mem_flatMap.mpr ⟨tok, htok, Option.mem_toList.mpr hp⟩
      · apply mapM_specParts

/-- A start of the program in the first second of 2026, when all directories can be created. -/
def newYear : Environment where
  backends := [.skiplist]
  probes := []
  readFile _ := none
  stamp := ascii "20260101-000000"
  mkdir _ := true

/-- The spec of a directory under `runs,old` has a second reporter that prints to `runs`. -/
theorem dirSinks_not :
  (reportersParse (fun _ => true) (some (reportDirSpec newYear (ascii "runs,old")))).sinks
    ≠ .ok (dirSinks (reportDirPath newYear (ascii "runs,old")))
  := by
  decide +kernel

end Keybench
