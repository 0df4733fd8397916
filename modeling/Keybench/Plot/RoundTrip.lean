import Keybench.Plot.Points
import Keybench.Run.Tsv
import Mathlib.Algebra.Order.BigOperators.Group.List

/-!
# From the tsv reporter to the plot script

The tsv reporter prints names as they are, and the plot script reads its file with a reader of
separated values.  When the names need no quotes, the points that are read are the reported ones
that have an operation (`readsBack_withOps`).  A name that needs quotes would take more of them in
the file than it has (`cost_workload`), so that the points are all read only when each has an
operation and no name of a workload needs quotes (`roundTrips_iff`).
-/

namespace Keybench

/-! ## Texts -/

/-- The text that Python reads for the bytes of a cell. -/
def str (b : Bytes) : Str := (Utf8.decode b).getD []

/-- Whether the bytes of a cell are a text. -/
def IsText (b : Bytes) : Prop := (Utf8.decode b).isSome

/-- A text has these bytes. -/
theorem encode_str {b : Bytes} (h : IsText b) :
  Utf8.encode (str b) = b
  := by
  obtain ⟨cs, hcs⟩ := Option.isSome_iff_exists.mp h
  rw [str, hcs, Option.getD_some]
  apply Utf8.decode_eq_some.mp hcs

/-- The text with these bytes. -/
theorem str_encode (cs : Str) :
  str (Utf8.encode cs) = cs ∧ IsText (Utf8.encode cs)
  := by
  rw [str, IsText, Utf8.decode_encode]
  exact ⟨rfl, rfl⟩

/-- Printable characters of ASCII without quotes. -/
def Ordinary (b : Bytes) : Prop := ∀ c ∈ b, 32 ≤ c.toNat ∧ c.toNat < 127 ∧ c ≠ chr '"'

instance decidableOrdinary (b : Bytes) : Decidable (Ordinary b) := List.decidableBAll _ b

/-- A name that the reader of separated values takes as it is. -/
def PlainName (b : Bytes) : Prop := IsText b ∧ Csv.Clean tsvDialect (str b)

/-- Ordinary characters are their own text. -/
theorem Ordinary.str_eq {b : Bytes} (h : Ordinary b) :
  IsText b ∧ str b = Utf8.ofAscii b
  := by
  have hlt : ∀ c ∈ b, c < 128 := by
    intro c hc
    rw [UInt8.lt_iff_toNat_lt]
    exact (h c hc).2.1.trans (by decide)
  rw [IsText, str, Utf8.decode_ofAscii hlt]
  exact ⟨rfl, rfl⟩

/-- Ordinary characters stay what they are. -/
theorem Ordinary.mem_str {b : Bytes} (h : Ordinary b) {x : Char} (hx : x ∈ str b) :
  32 ≤ x.toNat ∧ x ≠ '"'
  := by
  rw [h.str_eq.2, Utf8.ofAscii, List.mem_map] at hx
  obtain ⟨c, hc, rfl⟩ := hx
  obtain ⟨hle, hlt, hne⟩ := h c hc
  have hnat : (Char.ofNat c.toNat).toNat = c.toNat := Utf8.toNat_ofNat (hlt.trans (by decide))
  constructor
  · rw [hnat]
    exact hle
  · intro heq
    apply hne
    apply UInt8.toNat_inj.mp
    rw [← hnat, heq]
    rfl

/-- Ordinary characters need no quotes and have none. -/
theorem Ordinary.plain {b : Bytes} (h : Ordinary b) :
  PlainName b ∧ (str b).count '"' = 0
  := by
  refine ⟨⟨h.str_eq.1, ?_, ?_⟩, ?_⟩
  · intro x hx
    have hle := (h.mem_str hx).1
    constructor
    · rintro rfl
      revert hle
      decide
    · rw [Csv.newline, Bool.or_eq_false_iff, decide_eq_false_iff_not, decide_eq_false_iff_not]
      constructor
      · rintro rfl
        revert hle
        decide
      · rintro rfl
        revert hle
        decide
  · intro hhead
    apply (h.mem_str (List.mem_of_head? hhead)).2 rfl
  · rw [List.count_eq_zero]
    intro hmem
    apply (h.mem_str hmem).2 rfl

/-- A text has at most as many characters as bytes. -/
theorem length_str_le {b : Bytes} (h : IsText b) :
  (str b).length ≤ b.length
  := by
  have hle := Utf8.length_le_encode (str b)
  rw [encode_str h] at hle
  exact hle

/-- Printed numbers are ordinary. -/
theorem ordinary_of_isPrinted {b : Bytes} (h : ∀ c ∈ b, isPrinted c = true) :
  Ordinary b
  := by
  have hall : ∀ i : Fin 256, isPrinted (.ofFin i) = true →
      32 ≤ (UInt8.ofFin i).toNat ∧ (UInt8.ofFin i).toNat < 127 ∧ UInt8.ofFin i ≠ chr '"' := by
    decide +kernel
  intro c hc
  apply hall c.toFin (h c hc)

/-! ## The cells of a line -/

/-- What the callers of the reporter promise for a point: its operations are of different kinds,
the version of its engine is ordinary, the names fit their buffers, and the numbers are of their
types. -/
structure ReportPoint.Promised (p : ReportPoint) : Prop where
  ops_nodup : (p.ops.map ReportOp.op).Nodup
  engine_ordinary : Ordinary (fmtStr p.engine)
  engine_short : (fmtStr p.engine).length < 1024
  workload_short : p.workload.length < 128
  sweepParam_short : (p.sweepParam.getD []).length < 64
  sweepValue_long : -2 ^ 63 ≤ p.sweepValue ∧ p.sweepValue < 2 ^ 63
  hitRate_lt : |p.hitRate.getD 0| < 2 ^ 1024
  errRate_lt : |p.errRate.getD 0| < 2 ^ 1024
  wu_lt : |p.wu.med| < 2 ^ 1024
  opsRate_lt : |p.opsRate.med| < 2 ^ 1024

/-- The cells of a line as Python reads them. -/
def tsvRow (po : ReportPoint × ReportOp) : List Str := (tsvCells po.1 po.2).map str

/-- The name of an operation is ordinary and short. -/
theorem ordinary_opName (op : KvOp) :
  Ordinary (opName op) ∧ (opName op).length < 1024
  := by
  cases op with
  | _ => decide

/-- The text of a name tells the kind of operation. -/
theorem opName_injective {a b : KvOp} (h : str (opName a) = str (opName b)) :
  a = b
  := by
  have hname : opName a = opName b := by
    rw [← encode_str (ordinary_opName a).1.str_eq.1, h, encode_str (ordinary_opName b).1.str_eq.1]
  cases a with
  | _ => cases b with
    | _ => first | rfl | (revert hname; decide)

/-- The digits of a rate. -/
theorem fixedDigits_lt {k m : ℕ} (hk : k ≤ 3) {q : ℚ} (h : |q| < m) :
  fixedDigits k q < m * 10 ^ 3 + 2
  := by
  have hround : Binary64.roundEven (|q| * 10 ^ k) ≤ ⌊|q| * 10 ^ k⌋ + 1 := by
    rw [Binary64.roundEven]
    split_ifs
    · omega
    · omega
    · omega
    · omega
  have hpow : (10 : ℚ) ^ k ≤ 10 ^ 3 := by
    apply pow_le_pow_right₀ (by norm_num) hk
  have hlt : |q| * 10 ^ k < m * 10 ^ 3 := by
    apply lt_of_lt_of_le (mul_lt_mul_of_pos_right h (by positivity))
    apply mul_le_mul_of_nonneg_left hpow (by positivity)
  have hfloor : ⌊|q| * 10 ^ k⌋ < m * 10 ^ 3 := by
    apply Int.floor_lt.mpr
    push_cast
    exact hlt
  rw [fixedDigits]
  omega

/-- A rate is printed with few characters. -/
theorem length_fmtFixed_lt {k : ℕ} (hk : 0 < k) (hk' : k ≤ 3) {q : ℚ} (h : |q| < 2 ^ 1024) :
  (fmtFixed k q).length < 1024
  := by
  have hcast : |q| < ((2 ^ 1024 : ℕ) : ℚ) := by
    rw [Nat.cast_pow, Nat.cast_ofNat]
    exact h
  have hbig : 2 ^ 1024 * 10 ^ 3 + 2 ≤ 10 ^ 320 := by
    decide +kernel
  have hdigits := lt_of_lt_of_le (fixedDigits_lt hk' hcast) hbig
  have hwhole : (fmtNat (fixedDigits k q / 10 ^ k)).length ≤ 320 := by
    apply length_fmtNat_le (by decide)
    apply lt_of_le_of_lt (Nat.div_le_self _ _) hdigits
  have hfrac : (zeroPad k (fmtNat (fixedDigits k q % 10 ^ k))).length = k := by
    apply length_zeroPad hk
    apply Nat.mod_lt _ (by positivity)
  have hsign : (if q < 0 then [chr '-'] else []).length ≤ 1 := by
    split_ifs
    · apply Nat.le_refl
    · apply Nat.zero_le
  rw [fmtFixed, List.length_append, List.length_append, List.length_cons, hfrac]
  omega

/-- A number of 64 bits is printed with few characters. -/
theorem length_fmtNat_lt (n : UInt64) :
  (fmtNat n.toNat).length < 1024
  := by
  have hlt : n.toNat < 10 ^ 20 := by
    have hsize := n.toNat_lt
    omega
  have hle := length_fmtNat_le (by decide) hlt
  omega

/-- An integer of 64 bits is printed with few characters. -/
theorem length_fmtInt_lt {n : ℤ} (h : -2 ^ 63 ≤ n) (h' : n < 2 ^ 63) :
  (fmtInt n).length < 1024
  := by
  have hlt : n.natAbs < 10 ^ 20 := by omega
  have hle := length_fmtNat_le (by decide) hlt
  rw [fmtInt]
  split_ifs
  · rw [List.length_cons]
    omega
  · omega

/-- The swept value that is printed is an integer of 64 bits. -/
theorem ReportPoint.Promised.printedValue_long {p : ReportPoint} (h : p.Promised) :
  -2 ^ 63 ≤ p.printedValue ∧ p.printedValue < 2 ^ 63
  := by
  rw [ReportPoint.printedValue]
  split_ifs
  · exact h.sweepValue_long
  · decide

/-- The cells other than the names are ordinary and short. -/
theorem cells_ordinary {p : ReportPoint} (h : p.Promised) (o : ReportOp) :
  ∃ a b, tsvCells p o = p.workload :: a ++ p.sweepParam.getD [] :: b ∧ a.length = 2 ∧
    ∀ cell ∈ a ++ b, Ordinary cell ∧ cell.length < 1024
  := by
  have hint : ∀ n : ℤ, -2 ^ 63 ≤ n → n < 2 ^ 63 →
      Ordinary (fmtInt n) ∧ (fmtInt n).length < 1024 := by
    intro n hle hlt
    exact ⟨ordinary_of_isPrinted (fun c hc => isPrinted_fmtInt hc), length_fmtInt_lt hle hlt⟩
  have hnat : ∀ n : UInt64, Ordinary (fmtNat n.toNat) ∧ (fmtNat n.toNat).length < 1024 := by
    intro n
    exact ⟨ordinary_of_isPrinted (fun c hc => isPrinted_fmtNat hc), length_fmtNat_lt n⟩
  have hfixed : ∀ (k : ℕ) (q : ℚ), 0 < k → k ≤ 3 → |q| < 2 ^ 1024 →
      Ordinary (fmtFixed k q) ∧ (fmtFixed k q).length < 1024 := by
    intro k q hk hk' hq
    exact ⟨ordinary_of_isPrinted (fun c hc => isPrinted_fmtFixed hc), length_fmtFixed_lt hk hk' hq⟩
  have hthreads : -2 ^ 63 ≤ p.threads.toInt ∧ p.threads.toInt < 2 ^ 63 := by
    have hle := p.threads.le_toInt
    have hlt := p.threads.toInt_lt
    omega
  obtain ⟨hvalue, hvalue'⟩ := h.printedValue_long
  refine ⟨[_, _], _, rfl, rfl, ?_⟩
  simp only [List.cons_append, List.nil_append, List.forall_mem_cons]
  exact ⟨⟨h.engine_ordinary, h.engine_short⟩, hint _ hthreads.1 hthreads.2, hint _ hvalue hvalue',
    ordinary_opName _, hnat _, hnat _, hnat _, hnat _, hnat _,
    hfixed 3 _ (by decide) (by decide) h.hitRate_lt,
    hfixed 3 _ (by decide) (by decide) h.errRate_lt,
    hfixed 1 _ (by decide) (by decide) h.wu_lt, hfixed 1 _ (by decide) (by decide) h.opsRate_lt,
    by simp⟩

/-! ## The points that are read -/

/-- The names of the columns as Python reads them. -/
def tsvNames : List Str := tsvColumns.map Utf8.ofAscii

/-- The row of an operation of a point. -/
def pointRow (po : ReportPoint × ReportOp) : TsvRow := dictRow tsvNames (tsvRow po)

/-- The key of a point. -/
def ReportPoint.key (p : ReportPoint) : PointKey :=
  (some (str p.workload), some (str (fmtStr p.engine)), p.threads.toInt, p.printedValue)

/-- The entry of an operation. -/
def opEntry (o : ReportOp) : Option Str × Percentiles :=
  (some (str (opName o.op)),
    ⟨.ofRat o.p50.toNat, .ofRat o.p99.toNat, .ofRat o.p999.toNat⟩)

/-- The point that is read for a point, with the operations given. -/
def readPoint (p : ReportPoint) (os : List ReportOp) : Point where
  workload := some (str p.workload)
  engine := some (str (fmtStr p.engine))
  threads := p.threads.toInt
  sweepParam := some (str (p.sweepParam.getD []))
  sweepValue := p.printedValue
  wuPerS := .ofRat (fixedValue 1 p.wu.med)
  opsPerS := .ofRat (fixedValue 1 p.opsRate.med)
  hitRate := .ofRat (fixedValue 3 (p.hitRate.getD 0))
  ops := os.map opEntry

section

variable {u : Unicode}

/-- The cell of a column of a row. -/
theorem get_pointRow (po : ReportPoint × ReportOp) {i : ℕ} {name : Str}
    (hi : tsvNames[i]? = some name) :
  Dict.get (pointRow po) name = some ((tsvCells po.1 po.2)[i]?.map str)
  := by
  have hnames : tsvNames.Nodup := by decide
  rw [pointRow, get_dictRow hnames _ hi, tsvRow, List.getElem?_map]

/-- A printed integer is read in its cell. -/
theorem toInt_str {n : ℤ} (h : -2 ^ 63 ≤ n) (h' : n < 2 ^ 63) :
  toInt u (some (str (fmtInt n))) = some n
  := by
  have hordinary : Ordinary (fmtInt n) := by
    apply ordinary_of_isPrinted
    intro c hc
    apply isPrinted_fmtInt hc
  have hlt : n.natAbs < 10 ^ 20 := by omega
  have hlen := length_fmtNat_le (by decide) hlt
  rw [hordinary.str_eq.2, toInt_fmtInt (by omega)]

/-- A printed natural number is read in its cell. -/
theorem toFloat_str_fmtNat (n : ℕ) :
  toFloat u (some (str (fmtNat n))) = some (.ofRat n)
  := by
  have hordinary : Ordinary (fmtNat n) := by
    apply ordinary_of_isPrinted
    intro c hc
    apply isPrinted_fmtNat hc
  rw [hordinary.str_eq.2, toFloat_fmtNat]

/-- A printed rate is read in its cell. -/
theorem toFloat_str_fmtFixed {k : ℕ} (hk : 0 < k) (q : ℚ) :
  toFloat u (some (str (fmtFixed k q))) = some (.ofRat (fixedValue k q))
  := by
  have hordinary : Ordinary (fmtFixed k q) := by
    apply ordinary_of_isPrinted
    intro c hc
    apply isPrinted_fmtFixed hc
  rw [hordinary.str_eq.2, toFloat_fmtFixed hk]

/-- The key of a row is that of its point. -/
theorem rowKey_pointRow {p : ReportPoint} (h : p.Promised) (o : ReportOp) :
  rowKey u (pointRow (p, o)) = some p.key
  := by
  have hthreads : -2 ^ 63 ≤ p.threads.toInt ∧ p.threads.toInt < 2 ^ 63 := by
    have hle := p.threads.le_toInt
    have hlt := p.threads.toInt_lt
    omega
  obtain ⟨hvalue, hvalue'⟩ := h.printedValue_long
  have hcell2 : Dict.get (pointRow (p, o)) (column "threads")
      = some (some (str (fmtInt p.threads.toInt))) := by
    apply get_pointRow (i := 2)
    decide
  have hcell4 : Dict.get (pointRow (p, o)) (column "sweep_value")
      = some (some (str (fmtInt p.printedValue))) := by
    apply get_pointRow (i := 4)
    decide
  have hcell0 : Dict.get (pointRow (p, o)) (column "workload") = some (some (str p.workload)) := by
    apply get_pointRow (i := 0)
    decide
  have hcell1 : Dict.get (pointRow (p, o)) (column "engine")
      = some (some (str (fmtStr p.engine))) := by
    apply get_pointRow (i := 1)
    decide
  simp only [rowKey, hcell2, hcell4, hcell0, hcell1, Option.bind_eq_bind, Option.bind_some,
    toInt_str hthreads.1 hthreads.2, toInt_str hvalue hvalue', ReportPoint.key]

/-- A row begins its point. -/
theorem newPoint_pointRow (p : ReportPoint) (o : ReportOp) :
  newPoint u (pointRow (p, o)) p.key = some (readPoint p [])
  := by
  have hcell3 : Dict.get (pointRow (p, o)) (column "sweep_param")
      = some (some (str (p.sweepParam.getD []))) := by
    apply get_pointRow (i := 3)
    decide
  have hcell11 : Dict.get (pointRow (p, o)) (column "hit_rate")
      = some (some (str (fmtFixed 3 (p.hitRate.getD 0)))) := by
    apply get_pointRow (i := 11)
    decide
  have hcell13 : Dict.get (pointRow (p, o)) (column "wu_per_s")
      = some (some (str (fmtFixed 1 p.wu.med))) := by
    apply get_pointRow (i := 13)
    decide
  have hcell14 : Dict.get (pointRow (p, o)) (column "ops_per_s")
      = some (some (str (fmtFixed 1 p.opsRate.med))) := by
    apply get_pointRow (i := 14)
    decide
  simp only [newPoint, hcell3, hcell11, hcell13, hcell14, Option.bind_eq_bind, Option.bind_some,
    toFloat_str_fmtFixed (Nat.succ_pos _), ReportPoint.key, readPoint, Option.getD_some,
    List.map_nil]

/-- A row has the percentiles of its operation. -/
theorem rowPercentiles_pointRow (p : ReportPoint) (o : ReportOp) :
  rowPercentiles u (pointRow (p, o)) = some (opEntry o).2 ∧
    Dict.get (pointRow (p, o)) (column "op") = some (opEntry o).1
  := by
  have hcell7 : Dict.get (pointRow (p, o)) (column "p50_ns")
      = some (some (str (fmtNat o.p50.toNat))) := by
    apply get_pointRow (i := 7)
    decide
  have hcell8 : Dict.get (pointRow (p, o)) (column "p99_ns")
      = some (some (str (fmtNat o.p99.toNat))) := by
    apply get_pointRow (i := 8)
    decide
  have hcell9 : Dict.get (pointRow (p, o)) (column "p999_ns")
      = some (some (str (fmtNat o.p999.toNat))) := by
    apply get_pointRow (i := 9)
    decide
  constructor
  · simp only [rowPercentiles, hcell7, hcell8, hcell9, Option.bind_eq_bind, Option.bind_some,
      toFloat_str_fmtNat, opEntry]
  · apply get_pointRow (i := 5)
    decide

/-- The first row of a point adds it. -/
theorem addRow_new {p : ReportPoint} (h : p.Promised) (o : ReportOp)
    {byKey : List (PointKey × Point)} (hkey : p.key ∉ byKey.map Prod.fst) :
  addRow u byKey (pointRow (p, o)) = some (byKey ++ [(p.key, readPoint p [o])])
  := by
  obtain ⟨hpctls, hop⟩ := rowPercentiles_pointRow (u := u) p o
  rw [addRow, rowKey_pointRow h, Option.bind_eq_bind, Option.bind_some,
    Dict.get_eq_none.mpr hkey, Option.none_or, newPoint_pointRow, hpctls, hop]
  simp only [Option.bind_eq_bind, Option.bind_some]
  rw [Dict.set_of_notMem hkey]
  rfl

/-- Another row of the last point adds its operation. -/
theorem addRow_last {p : ReportPoint} (h : p.Promised) {o : ReportOp} {os : List ReportOp}
    (ho : o.op ∉ os.map ReportOp.op) {byKey : List (PointKey × Point)}
    (hkey : p.key ∉ byKey.map Prod.fst) :
  addRow u (byKey ++ [(p.key, readPoint p os)]) (pointRow (p, o))
    = some (byKey ++ [(p.key, readPoint p (os ++ [o]))])
  := by
  have hlookup : Dict.get (byKey ++ [(p.key, readPoint p os)]) p.key = some (readPoint p os) := by
    rw [Dict.get_append, Dict.get_eq_none.mpr hkey, Option.none_or, Dict.get_cons, if_pos rfl]
  have hnew : (opEntry o).1 ∉ (os.map opEntry).map Prod.fst := by
    intro hmem
    rw [List.map_map, List.mem_map] at hmem
    obtain ⟨o', ho', heq⟩ := hmem
    have hname : str (opName o'.op) = str (opName o.op) := Option.some_inj.mp heq
    apply ho
    rw [← opName_injective hname]
    apply List.mem_map_of_mem ho'
  obtain ⟨hpctls, hop⟩ := rowPercentiles_pointRow (u := u) p o
  rw [addRow, rowKey_pointRow h, Option.bind_eq_bind, Option.bind_some, hlookup, Option.some_or,
    hpctls, hop]
  simp only [Option.bind_eq_bind, Option.bind_some]
  rw [Dict.set_concat hkey, readPoint, readPoint, Dict.set_of_notMem hnew, List.map_append]
  rfl

/-- The rows of a point add it with its operations. -/
theorem foldlM_point {p : ReportPoint} (h : p.Promised) {os : List ReportOp} {done : List ReportOp}
    (hnodup : ((done ++ os).map ReportOp.op).Nodup) {byKey : List (PointKey × Point)}
    (hkey : p.key ∉ byKey.map Prod.fst) :
  (os.map (fun o => pointRow (p, o))).foldlM (addRow u) (byKey ++ [(p.key, readPoint p done)])
    = some (byKey ++ [(p.key, readPoint p (done ++ os))])
  := by
  induction os generalizing done with
  | nil => simp
  | cons o os ih =>
    have hsplit : done ++ o :: os = (done ++ [o]) ++ os := by
      rw [List.append_assoc, List.singleton_append]
    have ho : o.op ∉ done.map ReportOp.op := by
      intro hmem
      rw [List.map_append, List.nodup_append] at hnodup
      apply hnodup.2.2 _ hmem _ _ rfl
      apply List.mem_map_of_mem List.mem_cons_self
    rw [List.map_cons, List.foldlM_cons, addRow_last h ho hkey, Option.bind_eq_bind,
      Option.bind_some, ih (hsplit ▸ hnodup), hsplit]

/-- The rows of a point that is not known add it. -/
theorem foldlM_newPoint {p : ReportPoint} (h : p.Promised) (hops : p.ops ≠ [])
    {byKey : List (PointKey × Point)} (hkey : p.key ∉ byKey.map Prod.fst) :
  (p.ops.map (fun o => pointRow (p, o))).foldlM (addRow u) byKey
    = some (byKey ++ [(p.key, readPoint p p.ops)])
  := by
  obtain ⟨o, os, hcase⟩ := List.exists_cons_of_ne_nil hops
  have hnodup := h.ops_nodup
  rw [hcase] at hnodup
  rw [hcase, List.map_cons, List.foldlM_cons, addRow_new h o hkey, Option.bind_eq_bind,
    Option.bind_some, foldlM_point h hnodup hkey]
  rfl

/-- The points with operations. -/
def withOps (ps : List ReportPoint) : List ReportPoint := ps.filter (fun p => p.ops ≠ [])

/-- The rows of the first point come first. -/
theorem map_pointRow_cons (p : ReportPoint) (ps : List ReportPoint) :
  (pointOps (p :: ps)).map pointRow
    = p.ops.map (fun o => pointRow (p, o)) ++ (pointOps ps).map pointRow
  := by
  simp only [pointOps, List.flatMap_cons, List.map_append, List.map_map, Function.comp_def]

/-- The rows of points are read as the points that have operations. -/
theorem foldlM_points {ps : List ReportPoint} (h : ∀ p ∈ ps, p.Promised)
    {byKey : List (PointKey × Point)}
    (hkeys : (byKey.map Prod.fst ++ ps.map ReportPoint.key).Nodup) :
  ((pointOps ps).map pointRow).foldlM (addRow u) byKey
    = some (byKey ++ (withOps ps).map (fun p => (p.key, readPoint p p.ops)))
  := by
  induction ps generalizing byKey with
  | nil => simp [pointOps, withOps]
  | cons p ps ih =>
    obtain ⟨hp, hps⟩ := List.forall_mem_cons.mp h
    rw [List.map_cons] at hkeys
    have hkey : p.key ∉ byKey.map Prod.fst := by
      intro hmem
      apply (List.nodup_append.mp hkeys).2.2 _ hmem _ List.mem_cons_self rfl
    rw [map_pointRow_cons, List.foldlM_append]
    by_cases hops : p.ops = []
    · have hrest : (byKey.map Prod.fst ++ ps.map ReportPoint.key).Nodup := by
        apply List.Nodup.sublist _ hkeys
        apply List.Sublist.append_left
        apply List.sublist_cons_self
      have hwith : withOps (p :: ps) = withOps ps := by
        rw [withOps, List.filter_cons_of_neg (by simp [hops])]
        rfl
      rw [hops, List.map_nil, List.foldlM_nil, hwith]
      exact ih hps hrest
    · have hrest : ((byKey ++ [(p.key, readPoint p p.ops)]).map Prod.fst
          ++ ps.map ReportPoint.key).Nodup := by
        rw [List.map_append, List.append_assoc]
        exact hkeys
      have hwith : withOps (p :: ps) = p :: withOps ps := by
        rw [withOps, List.filter_cons_of_pos (by simp [hops])]
        rfl
      rw [foldlM_newPoint hp hops hkey, Option.bind_eq_bind, Option.bind_some, ih hps hrest, hwith,
        List.map_cons, List.append_assoc, List.singleton_append]

end

/-! ## The file that is read -/

/-- The records of the file. -/
def tsvRecords (ps : List ReportPoint) : List (List Str) := tsvNames :: (pointOps ps).map tsvRow

/-- A line of texts. -/
theorem encode_recordLine {cells : List Bytes} (h : ∀ cell ∈ cells, IsText cell) :
  Utf8.encode (Csv.recordLine tsvDialect (cells.map str)) = tsvLine cells
  := by
  have hcells : (cells.map str).map Utf8.encode = cells := by
    rw [List.map_map]
    conv_rhs => rw [← List.map_id cells]
    apply List.map_congr_left
    intro cell hcell
    apply encode_str (h cell hcell)
  have htab : Utf8.encode [tsvDialect.delimiter] = [chr '\t'] := by decide
  have hnl : Utf8.encode ['\n'] = [chr '\n'] := by decide
  rw [Csv.recordLine, Utf8.encode_append, Utf8.encode_intercalate, hcells, htab, hnl, tsvLine]

/-- Lines of texts. -/
theorem encode_records {lines : List (List Bytes)}
    (h : ∀ cells ∈ lines, ∀ cell ∈ cells, IsText cell) :
  Utf8.encode ((lines.map (fun cells => cells.map str)).flatMap (Csv.recordLine tsvDialect))
    = lines.flatMap tsvLine
  := by
  induction lines with
  | nil => rfl
  | cons cells lines ih =>
    obtain ⟨hcells, hrest⟩ := List.forall_mem_cons.mp h
    rw [List.map_cons, List.flatMap_cons, Utf8.encode_append, encode_recordLine hcells, ih hrest,
      List.flatMap_cons]

/-- A line of short cells that need no quotes. -/
theorem plain_cells {cells : List Bytes} (hlen : 2 ≤ cells.length)
    (h : ∀ cell ∈ cells, PlainName cell ∧ cell.length < 1024) :
  Csv.Plain tsvDialect (cells.map str)
  := by
  rw [← List.length_map (f := str)] at hlen
  constructor
  · intro hnil
    rw [hnil] at hlen
    revert hlen
    decide
  · intro hone
    rw [hone] at hlen
    revert hlen
    decide
  · rw [List.forall_mem_map]
    intro cell hcell
    apply (h cell hcell).1.2
  · rw [List.forall_mem_map]
    intro cell hcell
    apply (length_str_le (h cell hcell).1.1).trans
    apply (h cell hcell).2.le.trans
    decide

/-- Lines of cells that need no quotes are read as the rows of the first. -/
theorem readTsv_lines {cols : List Bytes} {lines : List (List Bytes)}
    (hlen : ∀ cells ∈ cols :: lines, 2 ≤ cells.length)
    (h : ∀ cells ∈ cols :: lines, ∀ cell ∈ cells, PlainName cell ∧ cell.length < 1024) :
  readTsv ((cols :: lines).flatMap tsvLine)
    = some (lines.map (fun cells => dictRow (cols.map str) (cells.map str)))
  := by
  have hdecode := Utf8.decode_eq_some.mpr
    (encode_records (fun cells hcells cell hcell => (h cells hcells cell hcell).1.1))
  have hplain : ∀ fs ∈ (cols :: lines).map (fun cells => cells.map str),
      Csv.Plain tsvDialect fs := by
    rw [List.forall_mem_map]
    intro cells hcells
    apply plain_cells (hlen cells hcells) (h cells hcells)
  have hfilter : (lines.map (fun cells => cells.map str)).filter (fun fields => fields ≠ [])
      = lines.map (fun cells => cells.map str) := by
    rw [List.filter_eq_self, List.forall_mem_map]
    intro cells hcells
    apply decide_eq_true
    apply (hplain _ (List.mem_map_of_mem (List.mem_cons_of_mem _ hcells))).ne_nil
  rw [readTsv, hdecode, Option.bind_eq_bind, Option.bind_some, Csv.rows_plain hplain,
    Option.bind_eq_bind, Option.bind_some, List.map_cons, dictRows, hfilter, List.map_map]
  rfl

/-- The names of the columns are ordinary. -/
theorem ordinary_tsvColumns :
  ∀ name ∈ tsvColumns, Ordinary name ∧ name.length < 1024
  := by
  decide

/-- The names of the columns as texts. -/
theorem tsvNames_eq :
  tsvNames = tsvColumns.map str
  := by
  rw [tsvNames]
  apply List.map_congr_left
  intro name hname
  rw [(ordinary_tsvColumns name hname).1.str_eq.2]

/-- The file of points whose cells are texts. -/
theorem decode_tsvText {p : ReportPoint} {ps : List ReportPoint}
    (h : ∀ po ∈ pointOps (p :: ps), ∀ cell ∈ tsvCells po.1 po.2, IsText cell) :
  Utf8.decode (tsvText (p :: ps))
    = some ((tsvRecords (p :: ps)).flatMap (Csv.recordLine tsvDialect))
  := by
  have htext : ∀ cells ∈ tsvColumns :: (pointOps (p :: ps)).map (fun po => tsvCells po.1 po.2),
      ∀ cell ∈ cells, IsText cell := by
    rw [List.forall_mem_cons, List.forall_mem_map]
    exact ⟨fun name hname => (ordinary_tsvColumns name hname).1.str_eq.1, h⟩
  have hencode := encode_records htext
  rw [List.map_cons, List.map_map, ← tsvNames_eq] at hencode
  rw [tsvText_cons, ← hencode]
  apply Utf8.decode_encode

/-- The cells of a point are texts when its names are. -/
theorem isText_tsvCells {p : ReportPoint} (h : p.Promised) (o : ReportOp)
    (hworkload : IsText p.workload) (hparam : IsText (p.sweepParam.getD [])) :
  ∀ cell ∈ tsvCells p o, IsText cell
  := by
  obtain ⟨a, b, hcells, -, hordinary⟩ := cells_ordinary h o
  rw [hcells]
  intro cell hcell
  simp only [List.cons_append, List.mem_cons, List.mem_append] at hcell
  rcases hcell with rfl | hcell | rfl | hcell
  · exact hworkload
  · apply (hordinary cell (List.mem_append_left _ hcell)).1.str_eq.1
  · exact hparam
  · apply (hordinary cell (List.mem_append_right _ hcell)).1.str_eq.1

/-- The cells of a point need no quotes when its names need none. -/
theorem plain_tsvCells {p : ReportPoint} (h : p.Promised) (o : ReportOp)
    (hworkload : PlainName p.workload) (hparam : PlainName (p.sweepParam.getD [])) :
  ∀ cell ∈ tsvCells p o, PlainName cell ∧ cell.length < 1024
  := by
  obtain ⟨a, b, hcells, -, hordinary⟩ := cells_ordinary h o
  rw [hcells]
  intro cell hcell
  simp only [List.cons_append, List.mem_cons, List.mem_append] at hcell
  rcases hcell with rfl | hcell | rfl | hcell
  · exact ⟨hworkload, h.workload_short.trans (by decide)⟩
  · obtain ⟨hcell, hlen⟩ := hordinary cell (List.mem_append_left _ hcell)
    exact ⟨hcell.plain.1, hlen⟩
  · exact ⟨hparam, h.sweepParam_short.trans (by decide)⟩
  · obtain ⟨hcell, hlen⟩ := hordinary cell (List.mem_append_right _ hcell)
    exact ⟨hcell.plain.1, hlen⟩

/-- The header is plain. -/
theorem plain_tsvNames :
  Csv.Plain tsvDialect tsvNames
  := by
  rw [tsvNames_eq]
  apply plain_cells (by decide)
  intro name hname
  exact ⟨(ordinary_tsvColumns name hname).1.plain.1, (ordinary_tsvColumns name hname).2⟩

/-- The file of points is read as the rows of their operations when their names are plain. -/
theorem readTsv_tsvText {p : ReportPoint} {ps : List ReportPoint}
    (h : ∀ po ∈ pointOps (p :: ps), po.1.Promised ∧ PlainName po.1.workload ∧
      PlainName (po.1.sweepParam.getD [])) :
  readTsv (tsvText (p :: ps)) = some ((pointOps (p :: ps)).map pointRow)
  := by
  have hcomp : (fun cells : List Bytes => dictRow tsvNames (cells.map str))
      ∘ (fun po => tsvCells po.1 po.2) = pointRow := by
    funext po
    rw [Function.comp_apply, pointRow, tsvRow]
  rw [tsvText_cons, readTsv_lines, List.map_map, ← tsvNames_eq, hcomp]
  · rw [List.forall_mem_cons, List.forall_mem_map]
    use by decide
    intro po _
    apply Nat.le_add_left 2 13
  · rw [List.forall_mem_cons, List.forall_mem_map]
    constructor
    · intro name hname
      exact ⟨(ordinary_tsvColumns name hname).1.plain.1, (ordinary_tsvColumns name hname).2⟩
    · intro po hmem
      obtain ⟨hp, hworkload, hparam⟩ := h po hmem
      apply plain_tsvCells hp _ hworkload hparam

/-- The points that have operations are read when the names of these points are plain. -/
theorem readPoints_tsvText {u : Unicode} {ps : List ReportPoint} (h : ∀ p ∈ ps, p.Promised)
    (hkeys : (ps.map ReportPoint.key).Nodup)
    (hplain : ∀ p ∈ ps, p.ops ≠ [] → PlainName p.workload ∧ PlainName (p.sweepParam.getD [])) :
  readPoints u (tsvText ps) = some ((withOps ps).map (fun p => readPoint p p.ops))
  := by
  cases ps with
  | nil => rfl
  | cons p ps =>
    have hread : readTsv (tsvText (p :: ps)) = some ((pointOps (p :: ps)).map pointRow) := by
      apply readTsv_tsvText
      intro po hpo
      obtain ⟨p', hp', hmem⟩ := List.mem_flatMap.mp hpo
      obtain ⟨o, ho, rfl⟩ := List.mem_map.mp hmem
      exact ⟨h p' hp', hplain p' hp' (List.ne_nil_of_mem ho)⟩
    have hall : ((pointOps (p :: ps)).map pointRow).all
        (fun row => (Dict.get row (column "workload")).isSome) = true := by
      rw [List.all_eq_true, List.forall_mem_map]
      intro po _
      have hcell : Dict.get (pointRow po) (column "workload")
          = some ((tsvCells po.1 po.2)[0]?.map str) := by
        apply get_pointRow (i := 0)
        decide
      rw [hcell, Option.isSome_some]
    have hkeys' : (([] : List (PointKey × Point)).map Prod.fst
        ++ (p :: ps).map ReportPoint.key).Nodup := hkeys
    have hfold := foldlM_points (u := u) h hkeys'
    rw [readPoints, hread, Option.bind_eq_bind, Option.bind_some, buildPoints, if_pos hall, hfold,
      Option.map_some, List.nil_append, List.map_map]
    rfl

/-! ## What names take in the file -/

/-- The quotes that the text of a cell takes at least. -/
def cellCost (cell : Option Str) : ℕ := (cell.map (Csv.cost tsvDialect)).getD 0

/-- The quotes that the rows of a point take at least for its workload. -/
def pointCost (q : Point) : ℕ := q.ops.length * cellCost q.workload

/-- The quotes that a row takes at least for its workload. -/
def rowCost (row : TsvRow) : ℕ := cellCost ((Dict.get row (column "workload")).getD none)

/-- What is known of the points while rows are read. -/
structure Gathered (byKey : List (PointKey × Point)) : Prop where
  nodup : (byKey.map Prod.fst).Nodup
  workload : ∀ e ∈ byKey, e.2.workload = e.1.1

/-- The value of a key is an entry. -/
theorem Gathered.workload_of_get {byKey : List (PointKey × Point)} (h : Gathered byKey)
    {key : PointKey} {point : Point} (hget : Dict.get byKey key = some point) :
  point.workload = key.1
  := by
  apply h.workload (key, point) (Dict.mem_of_get hget)

section

variable {u : Unicode}

/-- A row adds at most its own cost. -/
theorem addRow_cost {byKey byKey' : List (PointKey × Point)} {row : TsvRow} (h : Gathered byKey)
    (hadd : addRow u byKey row = some byKey') :
  Gathered byKey' ∧ (byKey'.map (fun e => pointCost e.2)).sum
    ≤ (byKey.map (fun e => pointCost e.2)).sum + rowCost row
  := by
  obtain ⟨key, point, op, pctls, hcell, hpoint, rfl⟩ := addRow_eq_some hadd
  have hlen := Dict.length_set_le point.ops op pctls
  have hrow : rowCost row = cellCost key.1 := by
    rw [rowCost, hcell]
    rfl
  have hworkload : point.workload = key.1 := by
    rcases hpoint with hget | ⟨-, hw, -⟩
    · apply h.workload_of_get hget
    · exact hw
  have hnew : pointCost { point with ops := Dict.set point.ops op pctls }
      ≤ pointCost point + cellCost key.1 := by
    rw [pointCost, pointCost, ← hworkload, ← Nat.succ_mul]
    apply Nat.mul_le_mul_right _ hlen
  constructor
  · use Dict.nodup_set h.nodup _ _
    apply Dict.forall_mem_set h.workload
    exact hworkload
  · rw [hrow]
    rcases hpoint with hget | ⟨hget, -, hops⟩
    · have hsum := Dict.sum_set_of_get_some (fun e => pointCost e.2) h.nodup hget
        { point with ops := Dict.set point.ops op pctls }
      dsimp only at hsum
      omega
    · have hsum := Dict.sum_set_of_get_none (fun e : PointKey × Point => pointCost e.2) hget
        { point with ops := Dict.set point.ops op pctls }
      have hzero : pointCost point = 0 := by
        rw [pointCost, hops]
        apply Nat.zero_mul
      dsimp only at hsum
      omega

/-- Rows add at most their own cost. -/
theorem foldlM_addRow_cost {rows : List TsvRow} {byKey byKey' : List (PointKey × Point)}
    (h : Gathered byKey) (hadd : rows.foldlM (addRow u) byKey = some byKey') :
  (byKey'.map (fun e => pointCost e.2)).sum
    ≤ (byKey.map (fun e => pointCost e.2)).sum + (rows.map rowCost).sum
  := by
  induction rows generalizing byKey with
  | nil =>
    obtain rfl := Option.some_inj.mp hadd
    apply Nat.le_add_right
  | cons row rows ih =>
    rw [List.foldlM_cons] at hadd
    obtain ⟨mid, hmid, hrest⟩ := Option.bind_eq_some_iff.mp hadd
    obtain ⟨hgathered, hcost⟩ := addRow_cost h hmid
    have hrec := ih hgathered hrest
    rw [List.map_cons, List.sum_cons]
    omega

/-- The points that are built take at most what their rows take. -/
theorem buildPoints_cost {rows : List TsvRow} {qs : List Point} (h : buildPoints u rows = some qs) :
  (qs.map pointCost).sum ≤ (rows.map rowCost).sum
  := by
  rw [buildPoints] at h
  split_ifs at h
  obtain ⟨byKey, hbyKey, rfl⟩ := Option.map_eq_some_iff.mp h
  have hempty : Gathered ([] : List (PointKey × Point)) := ⟨List.nodup_nil, by simp⟩
  have hcost := foldlM_addRow_cost hempty hbyKey
  rw [List.map_map]
  rw [List.map_nil, List.sum_nil, Nat.zero_add] at hcost
  exact hcost

end

/-- The rows of a header take at most what their records take. -/
theorem dictRows_cost (recs : List (List Str)) :
  ((dictRows (tsvNames :: recs)).map rowCost).sum ≤ (recs.map (Csv.recordCost tsvDialect)).sum
  := by
  rw [dictRows]
  induction recs with
  | nil => apply Nat.le_refl
  | cons fields recs ih =>
    rw [List.map_cons, List.sum_cons]
    by_cases hne : fields = []
    · rw [List.filter_cons_of_neg (by simp [hne])]
      exact le_add_left ih
    · rw [List.filter_cons_of_pos (by simp [hne]), List.map_cons, List.map_cons, List.sum_cons]
      apply Nat.add_le_add _ ih
      obtain ⟨f, fs, rfl⟩ := List.exists_cons_of_ne_nil hne
      have hnames : tsvNames.Nodup := by decide
      have hfirst : tsvNames[0]? = some (column "workload") := by decide
      have hcell := get_dictRow hnames (f :: fs) hfirst
      rw [rowCost, hcell, Csv.recordCost, List.map_cons, List.sum_cons]
      apply Nat.le_add_right

/-- The points of a file take at most the quotes of its lines. -/
theorem readPoints_cost {u : Unicode} {p : ReportPoint} {ps : List ReportPoint} {qs : List Point}
    (h : ∀ po ∈ pointOps (p :: ps), ∀ cell ∈ tsvCells po.1 po.2, IsText cell)
    (hread : readPoints u (tsvText (p :: ps)) = some qs) :
  (qs.map pointCost).sum
    ≤ (((pointOps (p :: ps)).map tsvRow).flatMap (Csv.recordLine tsvDialect)).count '"'
  := by
  obtain ⟨rows, hrows, hbuild⟩ := Option.bind_eq_some_iff.mp hread
  rw [readTsv, decode_tsvText h, Option.bind_eq_bind, Option.bind_some] at hrows
  obtain ⟨recs, hrecs, hdict⟩ := Option.bind_eq_some_iff.mp hrows
  obtain rfl := Option.some_inj.mp hdict
  -- the header is the first record
  obtain ⟨recs', hrecs', rfl⟩ : ∃ recs', Csv.rows tsvDialect {}
      (Csv.lines (((pointOps (p :: ps)).map tsvRow).flatMap (Csv.recordLine tsvDialect)))
        = some recs' ∧ recs = tsvNames :: recs' := by
    rw [tsvRecords, List.flatMap_cons, Csv.rows_cons plain_tsvNames] at hrecs
    obtain ⟨recs', hrecs', rfl⟩ := Option.map_eq_some_iff.mp hrecs
    exact ⟨recs', hrecs', rfl⟩
  have hquotes := Csv.rows_cost (d := tsvDialect) (r := {}) rfl hrecs'
  have hzero : Csv.Reader.weight tsvDialect {} = 0 := rfl
  rw [Csv.flatten_lines, hzero, Nat.zero_add] at hquotes
  calc (qs.map pointCost).sum ≤ ((dictRows (tsvNames :: recs')).map rowCost).sum :=
        buildPoints_cost hbuild
    _ ≤ (recs'.map (Csv.recordCost tsvDialect)).sum := dictRows_cost recs'
    _ ≤ _ := hquotes

/-! ## The round trip -/

/-- A point that is read is that of a reported point: it has the same names, threads and swept
value, the rates as printed, and the percentiles of each operation. -/
structure Matches (p : ReportPoint) (q : Point) : Prop where
  workload : ∃ w, q.workload = some w ∧ Utf8.encode w = p.workload
  engine : ∃ e, q.engine = some e ∧ Utf8.encode e = fmtStr p.engine
  threads : q.threads = p.threads.toInt
  sweepValue : q.sweepValue = p.printedValue
  wuPerS : q.wuPerS = .ofRat (fixedValue 1 p.wu.med)
  opsPerS : q.opsPerS = .ofRat (fixedValue 1 p.opsRate.med)
  hitRate : q.hitRate = .ofRat (fixedValue 3 (p.hitRate.getD 0))
  ops : ∀ e, e ∈ q.ops ↔ ∃ o ∈ p.ops, e = opEntry o

/-- The plot script reads exactly one point for each of `rs` when `ps` are reported. -/
def ReadsBack (u : Unicode) (ps rs : List ReportPoint) : Prop :=
  ∃ qs, readPoints u (tsvText ps) = some qs ∧ ∃ rs', rs'.Perm rs ∧ List.Forall₂ Matches rs' qs

/-- The plot script reads exactly one point for each reported point. -/
def RoundTrips (u : Unicode) (ps : List ReportPoint) : Prop := ReadsBack u ps ps

/-- The workload, engine, threads and swept value of a point. -/
def ReportPoint.labels (p : ReportPoint) : Bytes × Bytes × ℤ × ℤ :=
  (p.workload, fmtStr p.engine, p.threads.toInt, p.printedValue)

/-- The point that is read for a point matches it. -/
theorem matches_readPoint {p : ReportPoint} (h : p.Promised) (hworkload : IsText p.workload) :
  Matches p (readPoint p p.ops)
  := by
  refine ⟨⟨_, rfl, encode_str hworkload⟩, ⟨_, rfl, encode_str h.engine_ordinary.str_eq.1⟩, rfl, rfl,
    rfl, rfl, rfl, ?_⟩
  intro e
  rw [readPoint, List.mem_map]
  constructor
  · rintro ⟨o, ho, rfl⟩
    exact ⟨o, ho, rfl⟩
  · rintro ⟨o, ho, rfl⟩
    exact ⟨o, ho, rfl⟩

/-- The text of the workload of a point that is read. -/
theorem Matches.workload_eq {p : ReportPoint} {q : Point} (h : Matches p q) :
  q.workload = some (str p.workload) ∧ IsText p.workload
  := by
  obtain ⟨w, hw, hencode⟩ := h.workload
  obtain ⟨hstr, htext⟩ := str_encode w
  rw [← hencode, hstr]
  exact ⟨hw, htext⟩

/-- A point that is read takes at least what the lines of its point take for its workload. -/
theorem Matches.cost_le {p : ReportPoint} {q : Point} (hp : p.Promised) (h : Matches p q) :
  p.ops.length * Csv.cost tsvDialect (str p.workload) ≤ pointCost q
  := by
  have hsubset : p.ops.map opEntry ⊆ q.ops := by
    intro e he
    obtain ⟨o, ho, rfl⟩ := List.mem_map.mp he
    apply (h.ops _).mpr ⟨o, ho, rfl⟩
  have hnodup : (p.ops.map opEntry).Nodup := by
    apply List.Nodup.map_on _ hp.ops_nodup.of_map
    intro o ho o' ho' heq
    have hname : o.op = o'.op := opName_injective (Option.some_inj.mp (Prod.mk.inj heq).1)
    apply List.inj_on_of_nodup_map hp.ops_nodup ho ho' hname
  have hlen := (hnodup.subperm hsubset).length_le
  rw [List.length_map] at hlen
  rw [pointCost, h.workload_eq.1]
  apply Nat.mul_le_mul_right _ hlen

/-- Distinct points have distinct keys. -/
theorem nodup_key {ps : List ReportPoint} (h : ∀ p ∈ ps, p.Promised)
    (hlabels : (ps.map ReportPoint.labels).Nodup) (hworkload : ∀ p ∈ ps, IsText p.workload) :
  (ps.map ReportPoint.key).Nodup
  := by
  apply List.Nodup.map_on _ hlabels.of_map
  intro p hp p' hp' heq
  apply List.inj_on_of_nodup_map hlabels hp hp'
  simp only [ReportPoint.key, Prod.mk.injEq, Option.some_inj] at heq
  obtain ⟨hw, he, ht, hv⟩ := heq
  have hw' : p.workload = p'.workload := by
    rw [← encode_str (hworkload p hp), hw, encode_str (hworkload p' hp')]
  have he' : fmtStr p.engine = fmtStr p'.engine := by
    rw [← encode_str (h p hp).engine_ordinary.str_eq.1, he,
      encode_str (h p' hp').engine_ordinary.str_eq.1]
  rw [ReportPoint.labels, ReportPoint.labels, hw', he', ht, hv]

/-- When no name needs quotes, the points that have an operation are read. -/
theorem readsBack_withOps (u : Unicode) {ps : List ReportPoint} (h : ∀ p ∈ ps, p.Promised)
    (hlabels : (ps.map ReportPoint.labels).Nodup)
    (hplain : ∀ p ∈ ps, PlainName p.workload ∧ PlainName (p.sweepParam.getD [])) :
  ReadsBack u ps (withOps ps)
  := by
  have hkeys := nodup_key h hlabels (fun p hp => (hplain p hp).1.1)
  have hread := readPoints_tsvText (u := u) h hkeys (fun p hp _ => hplain p hp)
  refine ⟨_, hread, withOps ps, List.Perm.refl _, ?_⟩
  rw [List.forall₂_map_right_iff, List.forall₂_same]
  intro p hp
  have hmem := List.mem_of_mem_filter hp
  apply matches_readPoint (h p hmem) (hplain p hmem).1.1

/-- What Python knows of the characters of ASCII. -/
def asciiUnicode : Unicode where
  isspace c :=
    c.toNat < 128 && (isspace c.toNat.toUInt8 || (28 ≤ c.toNat && c.toNat ≤ 31))
  decimal c :=
    if c.toNat < 128 ∧ isdigit c.toNat.toUInt8 then some (digitValue c.toNat.toUInt8) else none
  isspace_ascii x hx := by
    have hlt : x.toNat < 128 := UInt8.lt_iff_toNat_lt.mp hx
    simp [Utf8.toNat_ofNat hlt, hlt]
  decimal_ascii x hx := by
    have hlt : x.toNat < 128 := UInt8.lt_iff_toNat_lt.mp hx
    simp [Utf8.toNat_ofNat hlt, hlt]

/-- A point of the skiplist with a name and operations. -/
def skiplistPoint (workload : Bytes) (ops : List ReportOp) : ReportPoint where
  workload := workload
  engine := some (ascii "skiplist")
  threads := 4
  repeats := 1
  sweepParam := none
  sweepValue := 0
  ops := ops
  hitRate := some 100
  errRate := none
  wu := ⟨1000, 1000, 1000⟩
  opsRate := ⟨2000, 2000, 2000⟩
  overallP50 := 10
  overallP99 := 20

/-- A hundred gets. -/
def hundredGets : ReportOp := ⟨.get, 100, 10, 20, 30, 40⟩

/-- Such a point is as promised. -/
theorem promised_skiplistPoint {workload : Bytes} {ops : List ReportOp}
    (hworkload : workload.length < 128) (hops : (ops.map ReportOp.op).Nodup) :
  (skiplistPoint workload ops).Promised
  := by
  have hlarge : ∀ q : ℚ, |q| < 2 ^ 20 → |q| < 2 ^ 1024 := by
    intro q hq
    apply hq.trans_le
    apply pow_le_pow_right₀ (by norm_num) (by norm_num)
  constructor
  · exact hops
  · show Ordinary (ascii "skiplist")
    decide
  · show (ascii "skiplist").length < 1024
    decide
  · exact hworkload
  · show ([] : Bytes).length < 64
    decide
  · show -2 ^ 63 ≤ (0 : ℤ) ∧ (0 : ℤ) < 2 ^ 63
    decide
  · apply hlarge
    show |(100 : ℚ)| < 2 ^ 20
    norm_num
  · apply hlarge
    show |(0 : ℚ)| < 2 ^ 20
    norm_num
  · apply hlarge
    show |(1000 : ℚ)| < 2 ^ 20
    norm_num
  · apply hlarge
    show |(2000 : ℚ)| < 2 ^ 20
    norm_num

/-- A point with gets and one without operations. -/
theorem readsBack_withOps_example :
  ReadsBack asciiUnicode
    [skiplistPoint (ascii "mixed") [hundredGets], skiplistPoint (ascii "idle") []]
    [skiplistPoint (ascii "mixed") [hundredGets]]
  := by
  have hmixed : Ordinary (ascii "mixed") := by decide
  have hidle : Ordinary (ascii "idle") := by decide
  have hnone : Ordinary [] := by decide
  apply readsBack_withOps asciiUnicode
  · intro p hp
    rcases List.mem_pair.mp hp with rfl | rfl
    · apply promised_skiplistPoint (by decide) (by decide)
    · apply promised_skiplistPoint (by decide) (by decide)
  · decide
  · intro p hp
    rcases List.mem_pair.mp hp with rfl | rfl
    · exact ⟨hmixed.plain.1, hnone.plain.1⟩
    · exact ⟨hidle.plain.1, hnone.plain.1⟩

/-! ## Names that need quotes -/

/-- The quotes of the lines of points are those of the workloads, when the names of the swept
parameters have none. -/
theorem count_rows {ps : List ReportPoint} (h : ∀ p ∈ ps, p.Promised)
    (hparam : ∀ p ∈ ps, (str (p.sweepParam.getD [])).count '"' = 0) :
  (((pointOps ps).map tsvRow).flatMap (Csv.recordLine tsvDialect)).count '"'
    = (ps.map (fun p => p.ops.length * (str p.workload).count '"')).sum
  := by
  have hrow : ∀ p ∈ ps, ∀ o : ReportOp,
      (Csv.recordLine tsvDialect (tsvRow (p, o))).count '"' = (str p.workload).count '"' := by
    intro p hp o
    have hzero : ∀ cells : List Bytes, (∀ cell ∈ cells, Ordinary cell ∧ cell.length < 1024) →
        ((cells.map str).map (fun f => f.count '"')).sum = 0 := by
      intro cells hcells
      rw [List.sum_eq_zero_iff, List.map_map, List.forall_mem_map]
      intro cell hcell
      apply (hcells cell hcell).1.plain.2
    have hquotes := Csv.count_recordLine tsvDialect (tsvRow (p, o))
    obtain ⟨a, b, hcells, -, hordinary⟩ := cells_ordinary (h p hp) o
    obtain ⟨ha, hb⟩ := List.forall_mem_append.mp hordinary
    have ha' := hzero a ha
    have hb' := hzero b hb
    have hquote : tsvDialect.quote = '"' := rfl
    rw [hquote] at hquotes
    rw [hquotes, tsvRow, hcells]
    simp only [List.cons_append, List.map_cons, List.map_append, List.sum_cons, List.sum_append,
      ha', hb', hparam p hp, Nat.add_zero]
  induction ps with
  | nil => rfl
  | cons p ps ih =>
    have hops : pointOps (p :: ps) = p.ops.map (fun o => (p, o)) ++ pointOps ps := rfl
    have hpoint : ∀ os : List ReportOp,
        (((os.map (fun o => (p, o))).map tsvRow).flatMap (Csv.recordLine tsvDialect)).count '"'
          = os.length * (str p.workload).count '"' := by
      intro os
      induction os with
      | nil =>
        rw [List.length_nil, Nat.zero_mul]
        rfl
      | cons o os ihos =>
        rw [List.map_cons, List.map_cons, List.flatMap_cons, List.count_append,
          hrow p List.mem_cons_self o, ihos, List.length_cons, Nat.succ_mul, Nat.add_comm]
    obtain ⟨-, hps⟩ := List.forall_mem_cons.mp h
    obtain ⟨-, hparams⟩ := List.forall_mem_cons.mp hparam
    rw [hops, List.map_append, List.flatMap_append, List.count_append, hpoint, List.map_cons,
      List.sum_cons, ih hps hparams (fun p' hp' => hrow p' (List.mem_cons_of_mem _ hp'))]

/-- The names of points that are read are texts. -/
theorem isText_workload {u : Unicode} {ps : List ReportPoint} (hround : RoundTrips u ps) :
  ∀ p ∈ ps, IsText p.workload
  := by
  obtain ⟨qs, -, ps', hperm, hmatches⟩ := hround
  have hboth : List.Forall₂ (fun p q => IsText p.workload ∧ Matches p q) ps' qs := by
    apply hmatches.imp
    intro p q hq
    exact ⟨hq.workload_eq.2, hq⟩
  intro p hp
  apply ((List.forall₂_and_left _ _).mp hboth).1 p (hperm.mem_iff.mpr hp)

/-- The names of points that are read take together no more quotes than they have. -/
theorem sum_cost_le {u : Unicode} {p₀ : ReportPoint} {ps : List ReportPoint}
    (h : ∀ p ∈ p₀ :: ps, p.Promised)
    (hparam : ∀ p ∈ p₀ :: ps, PlainName (p.sweepParam.getD []) ∧
      (str (p.sweepParam.getD [])).count '"' = 0)
    (hround : RoundTrips u (p₀ :: ps)) :
  ((p₀ :: ps).map (fun p => p.ops.length * Csv.cost tsvDialect (str p.workload))).sum
    ≤ ((p₀ :: ps).map (fun p => p.ops.length * (str p.workload).count '"')).sum
  := by
  have htext := isText_workload hround
  obtain ⟨qs, hread, ps', hperm, hmatches⟩ := hround
  have hcells : ∀ po ∈ pointOps (p₀ :: ps), ∀ cell ∈ tsvCells po.1 po.2, IsText cell := by
    intro po hpo
    obtain ⟨p, hp, hmem⟩ := List.mem_flatMap.mp hpo
    obtain ⟨o, -, rfl⟩ := List.mem_map.mp hmem
    apply isText_tsvCells (h p hp) o (htext p hp) (hparam p hp).1.1
  have hpromised : ∀ p ∈ ps', p.Promised := by
    intro p hp
    apply h p (hperm.mem_iff.mp hp)
  calc ((p₀ :: ps).map (fun p => p.ops.length * Csv.cost tsvDialect (str p.workload))).sum
      = (ps'.map (fun p => p.ops.length * Csv.cost tsvDialect (str p.workload))).sum :=
        (hperm.map _).sum_eq.symm
    _ ≤ (qs.map pointCost).sum := by
        apply List.Forall₂.sum_le_sum
        rw [List.forall₂_map_left_iff, List.forall₂_map_right_iff]
        apply ((List.forall₂_and_left _ _).mpr ⟨hpromised, hmatches⟩).imp
        intro p q hq
        apply hq.2.cost_le hq.1
    _ ≤ _ := readPoints_cost hcells hread
    _ = _ := count_rows h (fun p hp => (hparam p hp).2)

/-- Names of points that are read need no quotes. -/
theorem cost_workload {u : Unicode} {ps : List ReportPoint} (h : ∀ p ∈ ps, p.Promised)
    (hparam : ∀ p ∈ ps, PlainName (p.sweepParam.getD []) ∧
      (str (p.sweepParam.getD [])).count '"' = 0)
    (hround : RoundTrips u ps) :
  ∀ p ∈ ps, IsText p.workload ∧ (p.ops ≠ [] → PlainName p.workload)
  := by
  have htext := isText_workload hround
  cases ps with
  | nil => simp
  | cons p₀ ps =>
    have hcost := sum_cost_le h hparam hround
    intro p hp
    use htext p hp
    intro hops
    refine ⟨htext p hp, ?_⟩
    by_contra hclean
    have hcount : p.ops.length * (str p.workload).count '"'
        < p.ops.length * Csv.cost tsvDialect (str p.workload) := by
      apply Nat.mul_lt_mul_of_pos_left _ (List.length_pos_iff.mpr hops)
      rw [Csv.cost, if_neg hclean]
      apply Nat.lt_succ_self
    have hlt := List.sum_lt_sum (l := p₀ :: ps)
      (fun p => p.ops.length * (str p.workload).count '"')
      (fun p => p.ops.length * Csv.cost tsvDialect (str p.workload))
      (fun p _ => Nat.mul_le_mul_left _ (Nat.le_add_right _ _)) ⟨p, hp, hcount⟩
    omega

/-- When the names of the swept parameters are plain and have no quotes, the reported points are
read exactly when each has an operation and the names of the workloads are plain. -/
theorem roundTrips_iff (u : Unicode) {ps : List ReportPoint} (h : ∀ p ∈ ps, p.Promised)
    (hlabels : (ps.map ReportPoint.labels).Nodup)
    (hparam : ∀ p ∈ ps, PlainName (p.sweepParam.getD []) ∧
      (str (p.sweepParam.getD [])).count '"' = 0) :
  RoundTrips u ps ↔ ∀ p ∈ ps, p.ops ≠ [] ∧ PlainName p.workload
  := by
  constructor
  · intro hround
    have hworkload := cost_workload h hparam hround
    have hkeys := nodup_key h hlabels (fun p hp => (hworkload p hp).1)
    have hread := readPoints_tsvText (u := u) h hkeys
      (fun p hp hops => ⟨(hworkload p hp).2 hops, (hparam p hp).1⟩)
    obtain ⟨qs, hqs, ps', hperm, hmatches⟩ := hround
    rw [hread] at hqs
    obtain rfl := Option.some_inj.mp hqs
    -- a point without operations is not read
    have hlen := hmatches.length_eq
    rw [List.length_map, hperm.length_eq] at hlen
    have hall : withOps ps = ps := by
      apply List.Sublist.eq_of_length List.filter_sublist hlen.symm
    intro p hp
    have hops : p.ops ≠ [] := by
      rw [← hall, withOps, List.mem_filter] at hp
      simpa using hp.2
    exact ⟨hops, (hworkload p hp).2 hops⟩
  · intro hplain
    have hwith : withOps ps = ps := by
      rw [withOps, List.filter_eq_self]
      intro p hp
      apply decide_eq_true (hplain p hp).1
    have hreads := readPoints_tsvText (u := u) h
      (nodup_key h hlabels (fun p hp => (hplain p hp).2.1))
      (fun p hp _ => ⟨(hplain p hp).2, (hparam p hp).1⟩)
    rw [hwith] at hreads
    refine ⟨_, hreads, ps, List.Perm.refl ps, ?_⟩
    rw [List.forall₂_map_right_iff, List.forall₂_same]
    intro p hp
    apply matches_readPoint (h p hp) (hplain p hp).2.1

/-- A point whose name has a tab is not read, and neither is one without operations. -/
theorem roundTrips_not :
  ¬ RoundTrips asciiUnicode [skiplistPoint (ascii "a\tb") [hundredGets]] ∧
  ¬ RoundTrips asciiUnicode [skiplistPoint (ascii "idle") []]
  := by
  have hnone : Ordinary [] := by decide
  constructor
  · intro hround
    have hpromised : ∀ p ∈ [skiplistPoint (ascii "a\tb") [hundredGets]], p.Promised := by
      rw [List.forall_mem_singleton]
      apply promised_skiplistPoint (by decide) (by decide)
    have hworkload := cost_workload hpromised (by
      rw [List.forall_mem_singleton]
      exact hnone.plain) hround
    have hplain := (List.forall_mem_singleton.mp hworkload).2 (List.cons_ne_nil _ _)
    have hstr : str (ascii "a\tb") = ['a', '\t', 'b'] := by
      rw [str, Utf8.decode_ofAscii (by decide +kernel)]
      rfl
    have hclean : Csv.Clean tsvDialect (str (ascii "a\tb")) := hplain.2
    rw [hstr] at hclean
    revert hclean
    decide
  · rintro ⟨qs, hqs, ps', hperm, hmatches⟩
    have hpromised : ∀ p ∈ [skiplistPoint (ascii "idle") []], p.Promised := by
      rw [List.forall_mem_singleton]
      apply promised_skiplistPoint (by decide) (by decide)
    have hread := readPoints_tsvText (u := asciiUnicode) hpromised (List.nodup_singleton _) (by
      rw [List.forall_mem_singleton]
      intro hops
      exact absurd rfl hops)
    have hwith : withOps [skiplistPoint (ascii "idle") []] = [] := by decide
    rw [hread, hwith] at hqs
    obtain rfl := Option.some_inj.mp hqs
    have hlen := hmatches.length_eq
    rw [hperm.length_eq] at hlen
    cases hlen

end Keybench
