import Keybench.Libc.Chars

/-!
# Config files

A config file is read in lines of at most 1023 bytes.  A line loses its comment, is trimmed,
and then either selects a section or adds an entry to the section selected last.  Sections are
kept in the order in which they were first selected, with the `[bench]` section first, and a
section keeps the first 63 bytes of its name.
-/

namespace Keybench

/-- `kv_options`: a section, its name and its entries in file order. -/
structure KvOptions where
  /-- `name`. -/
  name : Bytes
  /-- `kv`. -/
  kv : List (Bytes × Bytes)
deriving DecidableEq, Repr

/-- `cfg_file`: the sections. -/
abbrev CfgFile : Type := List KvOptions

/-- The name of the section that holds the run knobs. -/
def benchName : Bytes := ascii "bench"

/-! ## Building sections -/

/-- `trim`. -/
def trim (s : Bytes) : Bytes := Text.trimBy isspace s

/-- `section_new`: the name is kept in a buffer of 64 bytes. -/
def sectionNew (name : Bytes) : KvOptions := ⟨snprintfStr 64 name, []⟩

/-- `section_add`. -/
def sectionAdd (o : KvOptions) (k v : Bytes) : KvOptions := { o with kv := o.kv ++ [(k, v)] }

/-- `file_section`: the section of that name, a new one at the end when there is none.  The
section is returned as its position. -/
def fileSection (c : CfgFile) (name : Bytes) : CfgFile × ℕ :=
  match c.findIdx? (fun o => o.name = name) with
  | some i => (c, i)
  | none => (c ++ [sectionNew name], c.length)

/-! ## Reading lines -/

/-- The loop of `cfg_load` that cuts the comment.  `start` says that the byte before is a space
or that there is none. -/
def cutComment (start : Bool) : Bytes → Bytes
  | [] => []
  | c :: l =>
    if (c = chr '#' || c = chr ';') && start then []
    else c :: cutComment (isspace c) l

/-- The sections and the position of the current one. -/
abbrev CfgState : Type := CfgFile × ℕ

/-- One turn of the loop of `cfg_load`, on the line in the buffer. -/
def cfgLine (st : CfgState) (line : Bytes) : CfgState :=
  let s := trim (cutComment true (cString line))
  if s = [] then st
  else if s.head? = some (chr '[') then
    match Text.splitFirst (chr ']') s with
    | some (name, _) => fileSection st.1 (trim name.tail)
    | none => st
  else
    match Text.splitFirst (chr '=') s with
    | some (key, val) => (st.1.modify st.2 (fun o => sectionAdd o (trim key) (trim val)), st.2)
    | none => st

/-- The size of the line buffer, less the terminating NUL. -/
def lineMax : ℕ := 1023

/-- The contents of the line buffer, one `fgets` after another. -/
def cfgLines (text : Bytes) : List Bytes := Text.readLines (chr '\n') lineMax text.length text

/-- `cfg_load`, on the contents of the file. -/
def cfgLoad (text : Bytes) : CfgFile :=
  ((cfgLines text).foldl cfgLine (fileSection [] benchName)).1

/-! ## Looking up -/

/-- `cfg_section`. -/
def cfgSection (c : CfgFile) (name : Bytes) : Option KvOptions :=
  c.find? (fun o => o.name = name)

/-- `kv_opt_str`, without the default: the value of the first entry with that key. -/
def kvOptStr (o : Option KvOptions) (key : Bytes) : Option Bytes :=
  o.bind (fun o => (o.kv.find? (fun e => e.1 = key)).map Prod.snd)

/-- The loop of `kv_opt_all`, with room for `n` more values. -/
def optAllLoop (key : Bytes) : List (Bytes × Bytes) → ℕ → List Bytes
  | [], _ => []
  | _ :: _, 0 => []
  | (k, v) :: kv, n + 1 => if k = key then v :: optAllLoop key kv n else optAllLoop key kv (n + 1)

/-- `kv_opt_all`. -/
def kvOptAll (o : Option KvOptions) (key : Bytes) (max : ℕ) : List Bytes :=
  match o with
  | some o => optAllLoop key o.kv max
  | none => []

/-! ## What the operations do -/

/-- `cutComment` keeps the text up to the first comment sign that follows a space. -/
theorem cutComment_append_singleton {c : UInt8} (hc : c ≠ chr '#') (hc' : c ≠ chr ';')
    (start : Bool) (l : Bytes) :
  cutComment start (l ++ [c]) = cutComment start l
    ∨ cutComment start (l ++ [c]) = cutComment start l ++ [c]
  := by
  induction l generalizing start with
  | nil =>
    right
    simp [cutComment, hc, hc']
  | cons x l ih =>
    rw [List.cons_append, cutComment, cutComment]
    split
    · left
      rfl
    · rcases ih (isspace x) with h | h
      · left
        rw [h]
      · right
        rw [h]
        rfl

/-- A text in which no comment starts is not cut. -/
theorem cutComment_isInit (start : Bool) (l : Bytes) :
  cutComment start l <+: l
  := by
  induction l generalizing start with
  | nil => exact List.prefix_refl _
  | cons x l ih =>
    rw [cutComment]
    split
    · apply List.nil_prefix
    · apply (List.prefix_cons_inj x).mpr (ih _)

/-- `optAllLoop` gathers the values of the key, as many as there is room for. -/
theorem optAllLoop_eq (key : Bytes) (kv : List (Bytes × Bytes)) (n : ℕ) :
  optAllLoop key kv n
    = (kv.filterMap (fun e => if e.1 = key then some e.2 else none)).take n
  := by
  induction kv generalizing n with
  | nil => simp [optAllLoop]
  | cons e kv ih =>
    obtain ⟨k, v⟩ := e
    cases n with
    | zero => simp [optAllLoop]
    | succ n =>
      rw [optAllLoop]
      by_cases hk : k = key
      · simp [hk, ih]
      · simp [hk, ih]

/-- A kept name fits the buffer. -/
theorem length_sectionNew_name (name : Bytes) :
  (sectionNew name).name.length ≤ 63
  := by
  apply List.length_take_le

end Keybench
