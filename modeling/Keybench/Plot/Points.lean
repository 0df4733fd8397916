import Keybench.Lib.Csv
import Keybench.Lib.Dict
import Keybench.Plot.Numbers

/-!
# The points of the plot script

`read_tsv` reads a file of tab-separated values as rows by column, and `build_points` gathers the
rows of each point.
-/

namespace Keybench

/-! ## Rows -/

/-- The dialect of the reader: `excel`, with a tab between values. -/
def tsvDialect : Csv.Dialect where
  delimiter := '\t'
  quote := '"'
  limit := 131072
  quote_ne_delimiter := by decide
  delimiter_ne_newline := by decide
  quote_ne_newline := by decide

/-- A row of `csv.DictReader`, the cells that a short row lacks as `none`. -/
abbrev TsvRow : Type := List (Str × Option Str)

/-- The row of a record. -/
def dictRow (names : List Str) (fields : List Str) : TsvRow :=
  (names.drop fields.length).foldl (fun row name => Dict.set row name none)
    ((names.zip fields).foldl (fun row e => Dict.set row e.1 (some e.2)) [])

/-- The rows of records: the first has the names of the columns, and empty records are left
out. -/
def dictRows : List (List Str) → List TsvRow
  | [] => []
  | names :: recs => (recs.filter (fun fields => fields ≠ [])).map (dictRow names)

/-- `read_tsv` of the bytes of a file, in a locale with UTF-8. -/
def readTsv (b : Bytes) : Option (List TsvRow) := do
  let text ← Utf8.decode b
  let recs ← Csv.rows tsvDialect {} (Csv.lines text)
  some (dictRows recs)

/-! ## Points -/

/-- The values of `PCTL_COLUMNS`. -/
structure Percentiles where
  /-- `p50`. -/
  p50 : Binary64
  /-- `p99`. -/
  p99 : Binary64
  /-- `p99.9`. -/
  p999 : Binary64
deriving DecidableEq

/-- `Point`. -/
structure Point where
  /-- `workload`. -/
  workload : Option Str
  /-- `engine`. -/
  engine : Option Str
  /-- `threads`. -/
  threads : ℤ
  /-- `sweep_param`. -/
  sweepParam : Option Str
  /-- `sweep_value`. -/
  sweepValue : ℤ
  /-- `wu_per_s`. -/
  wuPerS : Binary64
  /-- `ops_per_s`. -/
  opsPerS : Binary64
  /-- `hit_rate`. -/
  hitRate : Binary64
  /-- `ops`. -/
  ops : List (Option Str × Percentiles)
deriving DecidableEq

/-- The key of a point: its workload, engine, threads and swept value. -/
abbrev PointKey : Type := Option Str × Option Str × ℤ × ℤ

/-- The name of a column. -/
def column (name : String) : Str := name.toList

section

variable (u : Unicode)

/-- The key of a row. -/
def rowKey (row : TsvRow) : Option PointKey := do
  let threads ← toInt u (← Dict.get row (column "threads"))
  let sweepValue ← toInt u (← Dict.get row (column "sweep_value"))
  let workload ← Dict.get row (column "workload")
  let engine ← Dict.get row (column "engine")
  some (workload, engine, threads, sweepValue)

/-- The point that a row begins. -/
def newPoint (row : TsvRow) (key : PointKey) : Option Point := do
  let wuPerS ← toFloat u (← Dict.get row (column "wu_per_s"))
  let opsPerS ← toFloat u (← Dict.get row (column "ops_per_s"))
  let hitRate ← toFloat u (← Dict.get row (column "hit_rate"))
  some
    { workload := key.1, engine := key.2.1, threads := key.2.2.1
      sweepParam := (Dict.get row (column "sweep_param")).getD (some [])
      sweepValue := key.2.2.2, wuPerS, opsPerS, hitRate, ops := [] }

/-- The percentiles of a row. -/
def rowPercentiles (row : TsvRow) : Option Percentiles := do
  let p50 ← toFloat u (← Dict.get row (column "p50_ns"))
  let p99 ← toFloat u (← Dict.get row (column "p99_ns"))
  let p999 ← toFloat u (← Dict.get row (column "p999_ns"))
  some ⟨p50, p99, p999⟩

/-- One turn of the loop of `build_points`. -/
def addRow (byKey : List (PointKey × Point)) (row : TsvRow) : Option (List (PointKey × Point)) := do
  let key ← rowKey u row
  let point ← (Dict.get byKey key).or (newPoint u row key)
  let pctls ← rowPercentiles u row
  let op ← Dict.get row (column "op")
  some (Dict.set byKey key { point with ops := Dict.set point.ops op pctls })

/-- `build_points`. -/
def buildPoints (rows : List TsvRow) : Option (List Point) :=
  if rows.all (fun row => (Dict.get row (column "workload")).isSome) then
    (rows.foldlM (addRow u) []).map (fun byKey => byKey.map Prod.snd)
  else none

/-- The points of a file. -/
def readPoints (b : Bytes) : Option (List Point) := do
  let rows ← readTsv b
  buildPoints u rows

end

/-! ## The rows of a header -/

/-- The row of a record by the columns of its header. -/
theorem dictRow_eq {names : List Str} (hnames : names.Nodup) (fields : List Str) :
  dictRow names fields
    = names.zip (fields.map some ++ List.replicate (names.length - fields.length) none)
  := by
  have hzip : ∀ names fields : List Str,
      (names.zip fields).map (fun e => (e.1, some e.2))
          ++ (names.drop fields.length).map (fun name => (name, none))
        = names.zip (fields.map some ++ List.replicate (names.length - fields.length) none) := by
    intro names
    induction names with
    | nil => simp
    | cons name names ih =>
      intro fields
      cases fields with
      | nil =>
        have hrec := ih []
        simpa [List.replicate_succ] using hrec
      | cons field fields =>
        have hrec := ih fields
        simpa using hrec
  have hall : ((names.zip (fields.map some
      ++ List.replicate (names.length - fields.length) none)).map Prod.fst).Nodup := by
    rw [List.map_fst_zip]
    · exact hnames
    · rw [List.length_append, List.length_map, List.length_replicate]
      omega
  rw [← hzip] at hall ⊢
  have hfirst : (names.zip fields).foldl (fun row e => Dict.set row e.1 (some e.2)) []
      = (names.zip fields).map (fun e => (e.1, some e.2)) := by
    have hnodup : (((names.zip fields).map (fun e => (e.1, some e.2))).map Prod.fst).Nodup := by
      rw [List.map_append] at hall
      apply (List.nodup_append.mp hall).1
    have hset := Dict.foldl_set (m := []) hnodup
    rw [List.foldl_map, List.nil_append] at hset
    exact hset
  rw [dictRow, hfirst]
  have hset := Dict.foldl_set hall
  rw [List.foldl_map] at hset
  exact hset

/-- The cell of a column. -/
theorem get_dictRow {names : List Str} (hnames : names.Nodup) (fields : List Str) {i : ℕ}
    {name : Str} (hi : names[i]? = some name) :
  Dict.get (dictRow names fields) name = some fields[i]?
  := by
  have hlt : i < names.length := (List.getElem?_eq_some_iff.mp hi).1
  rw [dictRow_eq hnames, Dict.get_zip hnames _ hi]
  by_cases hfield : i < fields.length
  · rw [List.getElem?_append_left (by rw [List.length_map]; exact hfield), List.getElem?_map,
      List.getElem?_eq_getElem hfield]
    rfl
  · rw [List.getElem?_append_right (by rw [List.length_map]; omega),
      List.getElem?_eq_none (not_lt.mp hfield), List.getElem?_replicate, if_pos]
    rw [List.length_map]
    omega

/-! ## What a row does -/

section

variable {u : Unicode}

/-- The key of a row begins with its workload. -/
theorem get_of_rowKey {row : TsvRow} {key : PointKey} (h : rowKey u row = some key) :
  Dict.get row (column "workload") = some key.1
  := by
  simp only [rowKey, Option.bind_eq_bind, Option.bind_eq_some_iff] at h
  obtain ⟨_, _, _, _, _, _, _, _, workload, hworkload, engine, _, hkey⟩ := h
  rw [hworkload, ← Option.some_inj.mp hkey]

/-- A new point has the workload of its key, and no operations. -/
theorem newPoint_eq_some {row : TsvRow} {key : PointKey} {point : Point}
    (h : newPoint u row key = some point) :
  point.workload = key.1 ∧ point.ops = []
  := by
  simp only [newPoint, Option.bind_eq_bind, Option.bind_eq_some_iff] at h
  obtain ⟨_, _, _, _, _, _, _, _, _, _, _, _, hpoint⟩ := h
  rw [← Option.some_inj.mp hpoint]
  exact ⟨rfl, rfl⟩

/-- A row sets one operation of the point of its key. -/
theorem addRow_eq_some {byKey byKey' : List (PointKey × Point)} {row : TsvRow}
    (h : addRow u byKey row = some byKey') :
  ∃ key point op pctls, Dict.get row (column "workload") = some key.1 ∧
    (Dict.get byKey key = some point ∨
      (Dict.get byKey key = none ∧ point.workload = key.1 ∧ point.ops = [])) ∧
    byKey' = Dict.set byKey key { point with ops := Dict.set point.ops op pctls }
  := by
  simp only [addRow, Option.bind_eq_bind, Option.bind_eq_some_iff] at h
  obtain ⟨key, hkey, point, hpoint, pctls, _, op, _, hset⟩ := h
  refine ⟨key, point, op, pctls, get_of_rowKey hkey, ?_, (Option.some_inj.mp hset).symm⟩
  cases hget : Dict.get byKey key with
  | some old =>
    rw [hget, Option.some_or] at hpoint
    exact Or.inl hpoint
  | none =>
    rw [hget, Option.none_or] at hpoint
    exact Or.inr ⟨rfl, newPoint_eq_some hpoint⟩

end

end Keybench
