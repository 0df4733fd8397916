import Keybench.Libc.Chars

/-!
# Disk usage

`du_bytes` walks a directory tree with a stack of at most 64 pending directories and adds up the
sizes of what it meets.  A directory that it meets when the stack is full is not entered.  The
result is the size of all entries that the walk reaches (`duBytes_eq`), and that of all entries
when no directory is met with a full stack (`Listing.Roomy.counted_eq`).
-/

namespace Keybench

/-! ## Directory trees -/

/-- The entries of a directory, in the order of `readdir`, with all that is below them. -/
inductive Listing
  | nil
  /-- `.` or `..`. -/
  | dots (name : Bytes) (rest : Listing)
  /-- Anything that is not a directory. -/
  | file (name : Bytes) (size : ℕ) (rest : Listing)
  /-- A directory, with its own entries. -/
  | dir (name : Bytes) (size : ℕ) (below rest : Listing)

/-- What is found at a path. -/
inductive Tree
  | file (size : ℕ)
  | dir (size : ℕ) (below : Listing)

/-- The most directories that wait to be read, `DU_MAX_PENDING`. -/
def duMaxPending : ℕ := 64

namespace Listing

/-- The names that `readdir` gives. -/
def names : Listing → List Bytes
  | nil => []
  | dots name rest => name :: rest.names
  | file name _ rest => name :: rest.names
  | dir name _ _ rest => name :: rest.names

/-- The number of entries, at all depths. -/
def count : Listing → ℕ
  | nil => 0
  | dots _ rest => 1 + rest.count
  | file _ _ rest => 1 + rest.count
  | dir _ _ below rest => 1 + below.count + rest.count

/-- The sum of the sizes of the entries, at all depths. -/
def sizes : Listing → ℕ
  | nil => 0
  | dots _ rest => rest.sizes
  | file _ size rest => size + rest.sizes
  | dir _ size below rest => size + below.sizes + rest.sizes

/-- The sum of the sizes of the entries that a walk reaches, when `h` directories are pending as it
comes to the first of them: a directory is entered only if fewer than 64 are. -/
def counted (h : ℕ) : Listing → ℕ
  | nil => 0
  | dots _ rest => rest.counted h
  | file _ size rest => size + rest.counted h
  | dir _ size below rest =>
    if h < duMaxPending then size + below.counted h + rest.counted (h + 1)
    else size + rest.counted h

/-- The number of entries that a walk reads. -/
def visited (h : ℕ) : Listing → ℕ
  | nil => 0
  | dots _ rest => 1 + rest.visited h
  | file _ _ rest => 1 + rest.visited h
  | dir _ _ below rest =>
    if h < duMaxPending then 1 + below.visited h + rest.visited (h + 1) else 1 + rest.visited h

/-- No directory is met when 64 are pending. -/
def Roomy (h : ℕ) : Listing → Prop
  | nil => True
  | dots _ rest => rest.Roomy h
  | file _ _ rest => rest.Roomy h
  | dir _ _ below rest => h < duMaxPending ∧ below.Roomy h ∧ rest.Roomy (h + 1)

/-- The number of directories, at all depths. -/
def dirs : Listing → ℕ
  | nil => 0
  | dots _ rest => rest.dirs
  | file _ _ rest => rest.dirs
  | dir _ _ below rest => 1 + below.dirs + rest.dirs

/-- A walk reads no entry twice. -/
theorem visited_le_count (h : ℕ) (l : Listing) :
  l.visited h ≤ l.count
  := by
  induction l generalizing h with
  | nil => apply Nat.le_refl
  | dots name rest ih =>
    have hrest := ih h
    rw [visited, count]
    omega
  | file name size rest ih =>
    have hrest := ih h
    rw [visited, count]
    omega
  | dir name size below rest ihb ihr =>
    have hbelow := ihb h
    have hrest := ihr h
    have hrest' := ihr (h + 1)
    rw [visited, count]
    split_ifs
    · omega
    · omega

/-- A walk counts no entry twice. -/
theorem counted_le_sizes (h : ℕ) (l : Listing) :
  l.counted h ≤ l.sizes
  := by
  induction l generalizing h with
  | nil => apply Nat.le_refl
  | dots name rest ih => apply ih
  | file name size rest ih =>
    have hrest := ih h
    rw [counted, sizes]
    omega
  | dir name size below rest ihb ihr =>
    have hbelow := ihb h
    have hrest := ihr h
    have hrest' := ihr (h + 1)
    rw [counted, sizes]
    split_ifs
    · omega
    · omega

/-- A walk counts all entries when no directory is met with a full stack. -/
theorem Roomy.counted_eq {h : ℕ} {l : Listing} (hl : l.Roomy h) :
  l.counted h = l.sizes
  := by
  induction l generalizing h with
  | nil => rfl
  | dots name rest ih => apply ih hl
  | file name size rest ih => rw [counted, sizes, ih hl]
  | dir name size below rest ihb ihr =>
    obtain ⟨hroom, hbelow, hrest⟩ := hl
    rw [counted, sizes, if_pos hroom, ihb hbelow, ihr hrest]

/-- No directory is met with a full stack when there are at most 64. -/
theorem roomy_of_dirs {h : ℕ} {l : Listing} (hl : h + l.dirs ≤ duMaxPending) :
  l.Roomy h
  := by
  induction l generalizing h with
  | nil => trivial
  | dots name rest ih => apply ih hl
  | file name size rest ih => apply ih hl
  | dir name size below rest ihb ihr =>
    rw [dirs] at hl
    exact ⟨by omega, ihb (by omega), ihr (by omega)⟩

end Listing

/-! ## The walk -/

/-- `DU_PATH_MAX`. -/
def duPathMax : ℕ := 4096

/-- `DU_MAX_ENTRIES`. -/
def duMaxEntries : ℕ := 2000000

/-- The members of `struct stat` that the walk reads. -/
structure Stat where
  /-- `st_size`. -/
  size : ℕ
  /-- `S_ISDIR (st_mode)`. -/
  isDir : Bool
deriving DecidableEq

/-- What the walk finds in the system. -/
structure DuFiles where
  /-- `lstat`. -/
  lstat : Bytes → Option Stat
  /-- `opendir`, with the names that `readdir` gives then. -/
  opendir : Bytes → Option (List Bytes)
  /-- Whether there is memory for the pending paths. -/
  malloc : Bool

/-- The variables of the walk. -/
structure DuState where
  /-- `pending`, the path pushed last first. -/
  pending : List Bytes
  /-- `total`. -/
  total : UInt64
  /-- `guard`. -/
  guard : ℕ

/-- The path of an entry. -/
def childPath (dir name : Bytes) : Bytes := dir ++ chr '/' :: name

/-- The inner loop of `du_bytes`, on one entry of a directory. -/
def duEntry (fs : DuFiles) (dir : Bytes) (st : DuState) (name : Bytes) : DuState :=
  let st := { st with guard := st.guard + 1 }
  if name = ascii "." ∨ name = ascii ".." then st
  else if dir.length + 1 + name.length ≥ duPathMax then st
  else
    match fs.lstat (childPath dir name) with
    | none => st
    | some s =>
      let st := { st with total := st.total + UInt64.ofNat s.size }
      if s.isDir ∧ st.pending.length < duMaxPending then
        { st with pending := snprintfStr duPathMax (childPath dir name) :: st.pending }
      else st

/-- The inner loop of `du_bytes`. -/
def duEntries (fs : DuFiles) (dir : Bytes) : List Bytes → DuState → DuState
  | [], st => st
  | name :: names, st =>
    if st.guard < duMaxEntries then duEntries fs dir names (duEntry fs dir st name) else st

/-- An entry pushes at most one path. -/
theorem duEntry_measure (fs : DuFiles) (dir : Bytes) (st : DuState) (name : Bytes) :
  (duEntry fs dir st name).guard = st.guard + 1 ∧
    (duEntry fs dir st name).pending.length ≤ st.pending.length + 1
  := by
  rw [duEntry]
  dsimp only
  split_ifs
  · exact ⟨rfl, Nat.le_succ _⟩
  · exact ⟨rfl, Nat.le_succ _⟩
  · cases fs.lstat (childPath dir name) with
    | none => exact ⟨rfl, Nat.le_succ _⟩
    | some s =>
      dsimp only
      split_ifs
      · exact ⟨rfl, Nat.le_refl _⟩
      · exact ⟨rfl, Nat.le_succ _⟩

/-- The inner loop pushes at most one path for each entry that it reads. -/
theorem duEntries_measure (fs : DuFiles) (dir : Bytes) (names : List Bytes) (st : DuState) :
  (duEntries fs dir names st).pending.length
      + 2 * (duMaxEntries - (duEntries fs dir names st).guard)
    ≤ st.pending.length + 2 * (duMaxEntries - st.guard)
  := by
  induction names generalizing st with
  | nil => apply Nat.le_refl
  | cons name names ih =>
    rw [duEntries]
    split_ifs with hguard
    · apply le_trans (ih _)
      obtain ⟨hstep, hpush⟩ := duEntry_measure fs dir st name
      rw [hstep]
      omega
    · apply Nat.le_refl

/-- The outer loop of `du_bytes`. -/
def duLoop (fs : DuFiles) (st : DuState) : UInt64 :=
  match _hst : st.pending with
  | [] => st.total
  | dir :: pending =>
    if st.guard < duMaxEntries then
      match fs.opendir dir with
      | none => duLoop fs { st with pending }
      | some names => duLoop fs (duEntries fs dir names { st with pending })
    else st.total
termination_by st.pending.length + 2 * (duMaxEntries - st.guard)
decreasing_by
  · simp_all
  · have hle := duEntries_measure fs dir names { st with pending }
    simp_all
    omega

/-- `du_bytes`. -/
def duBytes (fs : DuFiles) (root : Bytes) : UInt64 :=
  match fs.lstat root with
  | none => 0
  | some st =>
    if st.isDir ∧ fs.malloc then
      duLoop fs ⟨[snprintfStr duPathMax root], UInt64.ofNat st.size, 0⟩
    else UInt64.ofNat st.size

/-! ## The walk of a tree -/

/-- `lstat`, `opendir` and `readdir` find the listing below a directory. -/
def Listing.Below (fs : DuFiles) (dir : Bytes) : Listing → Prop
  | .nil => True
  | .dots name rest => (name = ascii "." ∨ name = ascii "..") ∧ rest.Below fs dir
  | .file name size rest =>
    ¬ (name = ascii "." ∨ name = ascii "..") ∧ fs.lstat (childPath dir name) = some ⟨size, false⟩ ∧
      rest.Below fs dir
  | .dir name size below rest =>
    (¬ (name = ascii "." ∨ name = ascii "..") ∧ fs.lstat (childPath dir name) = some ⟨size, true⟩ ∧
      fs.opendir (childPath dir name) = some below.names ∧ below.Below fs (childPath dir name)) ∧
      rest.Below fs dir

instance decidableBelow (fs : DuFiles) :
    (l : Listing) → (dir : Bytes) → Decidable (l.Below fs dir)
  | .nil, _ => isTrue trivial
  | .dots _ rest, dir =>
    have := decidableBelow fs rest dir
    inferInstanceAs (Decidable (_ ∧ _))
  | .file _ _ rest, dir =>
    have := decidableBelow fs rest dir
    inferInstanceAs (Decidable (_ ∧ _ ∧ _))
  | .dir name _ below rest, dir =>
    have := decidableBelow fs below (childPath dir name)
    have := decidableBelow fs rest dir
    inferInstanceAs (Decidable ((_ ∧ _ ∧ _ ∧ _) ∧ _))

/-- The paths below a directory fit `DU_PATH_MAX`. -/
def Listing.Fits (dir : Bytes) : Listing → Prop
  | .nil => True
  | .dots _ rest => rest.Fits dir
  | .file name _ rest => (childPath dir name).length < duPathMax ∧ rest.Fits dir
  | .dir name _ below rest =>
    (childPath dir name).length < duPathMax ∧ below.Fits (childPath dir name) ∧ rest.Fits dir

instance decidableFits : (l : Listing) → (dir : Bytes) → Decidable (l.Fits dir)
  | .nil, _ => isTrue trivial
  | .dots _ rest, dir => decidableFits rest dir
  | .file _ _ rest, dir =>
    have := decidableFits rest dir
    inferInstanceAs (Decidable (_ ∧ _))
  | .dir name _ below rest, dir =>
    have := decidableFits below (childPath dir name)
    have := decidableFits rest dir
    inferInstanceAs (Decidable (_ ∧ _ ∧ _))

/-- The state of the walk after it has read what it reaches of a listing. -/
def DuState.after (st : DuState) (l : Listing) : DuState where
  pending := st.pending
  total := st.total + UInt64.ofNat (l.counted st.pending.length)
  guard := st.guard + l.visited st.pending.length

/-- A path that fits is copied whole. -/
theorem snprintfStr_of_fits {path : Bytes} (h : path.length < duPathMax) :
  snprintfStr duPathMax path = path
  := by
  apply List.take_of_length_le
  apply Nat.le_sub_one_of_lt h

/-- The path of an entry is as long as the check computes. -/
theorem length_childPath (dir name : Bytes) :
  (childPath dir name).length = dir.length + 1 + name.length
  := by
  rw [childPath, List.length_append, List.length_cons]
  omega

/-- An entry that is not a directory adds its size. -/
theorem duEntry_file {fs : DuFiles} {dir name : Bytes} {size : ℕ} (st : DuState)
    (hname : ¬ (name = ascii "." ∨ name = ascii ".."))
    (hstat : fs.lstat (childPath dir name) = some ⟨size, false⟩)
    (hfits : (childPath dir name).length < duPathMax) :
  duEntry fs dir st name = ⟨st.pending, st.total + UInt64.ofNat size, st.guard + 1⟩
  := by
  rw [length_childPath] at hfits
  rw [duEntry, if_neg hname, if_neg (Nat.not_le.mpr hfits), hstat]
  rfl

/-- A directory adds its size, and is pushed when there is room. -/
theorem duEntry_dir {fs : DuFiles} {dir name : Bytes} {size : ℕ} (st : DuState)
    (hname : ¬ (name = ascii "." ∨ name = ascii ".."))
    (hstat : fs.lstat (childPath dir name) = some ⟨size, true⟩)
    (hfits : (childPath dir name).length < duPathMax) :
  duEntry fs dir st name
    = ⟨if st.pending.length < duMaxPending then childPath dir name :: st.pending else st.pending,
        st.total + UInt64.ofNat size, st.guard + 1⟩
  := by
  have hcopy := snprintfStr_of_fits hfits
  rw [length_childPath] at hfits
  rw [duEntry, if_neg hname, if_neg (Nat.not_le.mpr hfits), hstat, hcopy]
  by_cases hroom : st.pending.length < duMaxPending
  · simp [hroom]
  · simp [hroom]

/-- A directory that is popped is read. -/
theorem duLoop_pop {fs : DuFiles} {dir : Bytes} {pending names : List Bytes} {total : UInt64}
    {guard : ℕ} (hguard : guard < duMaxEntries) (hopen : fs.opendir dir = some names) :
  duLoop fs ⟨dir :: pending, total, guard⟩
    = duLoop fs (duEntries fs dir names ⟨pending, total, guard⟩)
  := by
  rw [duLoop]
  simp only [hguard, if_true, hopen]

/-- The walk reads the entries of a listing, and everything that it has pushed meanwhile, before
it comes back to what was pending. -/
theorem duLoop_listing {fs : DuFiles} {dir : Bytes} {l : Listing} {st : DuState}
    (h : l.Below fs dir) (hfits : l.Fits dir) (hguard : st.guard + l.count < duMaxEntries) :
  duLoop fs (duEntries fs dir l.names st) = duLoop fs (st.after l)
  := by
  induction l generalizing dir st with
  | nil =>
    have hzero : st.total + UInt64.ofNat 0 = st.total := UInt64.add_zero _
    rw [DuState.after, Listing.counted, Listing.visited, hzero]
    rfl
  | dots name rest ih =>
    rw [Listing.count] at hguard
    have hentry : duEntry fs dir st name = { st with guard := st.guard + 1 } := by
      rw [duEntry, if_pos h.1]
    rw [Listing.names, duEntries, if_pos (by omega), hentry, ih h.2 hfits (by dsimp only; omega)]
    simp only [DuState.after, Listing.counted, Listing.visited, Nat.add_assoc]
  | file name size rest ih =>
    obtain ⟨hname, hstat, hrest⟩ := h
    rw [Listing.count] at hguard
    rw [Listing.names, duEntries, if_pos (by omega), duEntry_file st hname hstat hfits.1,
      ih hrest hfits.2 (by dsimp only; omega)]
    simp only [DuState.after, Listing.counted, Listing.visited, Nat.add_assoc, UInt64.ofNat_add,
      UInt64.add_assoc]
  | dir name size below rest ihb ihr =>
    obtain ⟨⟨hname, hstat, hopen, hbelow⟩, hrest⟩ := h
    obtain ⟨hfit, hfitsb, hfitsr⟩ := hfits
    rw [Listing.count] at hguard
    rw [Listing.names, duEntries, if_pos (by omega), duEntry_dir st hname hstat hfit]
    by_cases hroom : st.pending.length < duMaxPending
    · -- the rest of the listing is read first, with the directory pending
      have hvisited := Listing.visited_le_count (st.pending.length + 1) rest
      rw [if_pos hroom, ihr hrest hfitsr (by dsimp only; omega), DuState.after, List.length_cons,
        duLoop_pop (by dsimp only; omega) hopen, ihb hbelow hfitsb (by dsimp only; omega)]
      simp only [DuState.after, Listing.counted, Listing.visited, if_pos hroom, UInt64.ofNat_add]
      congr 2
      · rw [UInt64.add_assoc, UInt64.add_assoc, UInt64.add_assoc, UInt64.add_comm (UInt64.ofNat _)
          (UInt64.ofNat (below.counted _))]
      · omega
    · rw [if_neg hroom, ihr hrest hfitsr (by dsimp only; omega)]
      simp only [DuState.after, Listing.counted, Listing.visited, if_neg hroom, UInt64.ofNat_add,
        UInt64.add_assoc, Nat.add_assoc]

namespace Tree

/-- `lstat`, `opendir` and `readdir` find the tree at a path. -/
def Holds (fs : DuFiles) (root : Bytes) : Tree → Prop
  | file size => fs.lstat root = some ⟨size, false⟩
  | dir size below =>
    fs.lstat root = some ⟨size, true⟩ ∧ fs.opendir root = some below.names ∧ below.Below fs root

/-- The paths of a tree fit `DU_PATH_MAX`. -/
def Fits (root : Bytes) : Tree → Prop
  | file _ => root.length < duPathMax
  | dir _ below => root.length < duPathMax ∧ below.Fits root

/-- The number of directory entries. -/
def count : Tree → ℕ
  | file _ => 0
  | dir _ below => below.count

/-- The size of the root. -/
def size : Tree → ℕ
  | file size => size
  | dir size _ => size

/-- The sum of the sizes of the root and of every entry below it. -/
def sizes : Tree → ℕ
  | file size => size
  | dir size below => size + below.sizes

/-- The sum of the sizes of the root and of the entries that a walk reaches. -/
def counted : Tree → ℕ
  | file size => size
  | dir size below => size + below.counted 0

/-- A walk meets no directory when 64 are pending. -/
def Roomy : Tree → Prop
  | file _ => True
  | dir _ below => below.Roomy 0

end Tree

/-- `du_bytes` adds up the sizes of the root and of the entries that the walk reaches. -/
theorem duBytes_counted {fs : DuFiles} {root : Bytes} {t : Tree} (h : t.Holds fs root)
    (hfits : t.Fits root) (hcount : t.count < duMaxEntries) :
  duBytes fs root = UInt64.ofNat (if fs.malloc then t.counted else t.size)
  := by
  cases t with
  | file size =>
    rw [Tree.Holds] at h
    rw [duBytes, h]
    simp [Tree.counted, Tree.size]
  | dir size below =>
    obtain ⟨hstat, hopen, hbelow⟩ := h
    rw [Tree.count] at hcount
    rw [duBytes, hstat]
    by_cases hmalloc : fs.malloc
    · simp only [hmalloc, and_self, if_true]
      rw [snprintfStr_of_fits hfits.1, duLoop_pop (by omega) hopen,
        duLoop_listing hbelow hfits.2 (by dsimp only; omega), DuState.after, duLoop]
      simp [Tree.counted, UInt64.ofNat_add]
    · simp [hmalloc, Tree.size]

/-- `du_bytes` returns, modulo 2^64, the sum of the sizes of the root and of the entries that the
walk reaches; it reaches all of them when it meets no directory with a full stack. -/
theorem duBytes_eq {fs : DuFiles} {root : Bytes} {t : Tree} (h : t.Holds fs root)
    (hfits : t.Fits root) (hcount : t.count < duMaxEntries) :
  duBytes fs root = UInt64.ofNat (if fs.malloc then t.counted else t.size)
    ∧ t.counted ≤ t.sizes ∧ (t.Roomy → t.counted = t.sizes)
  := by
  use duBytes_counted h hfits hcount
  cases t with
  | file size => exact ⟨Nat.le_refl _, fun _ => rfl⟩
  | dir size below =>
    have hle := Listing.counted_le_sizes 0 below
    constructor
    · rw [Tree.counted, Tree.sizes]
      omega
    · intro hroomy
      rw [Tree.counted, Tree.sizes, Listing.Roomy.counted_eq hroomy]

/-- Directories that hold a file of one byte each. -/
def oneFileEach : ℕ → Listing
  | 0 => .dots (ascii ".") (.dots (ascii "..") .nil)
  | n + 1 => .dir (List.replicate (n + 1) (chr 'd')) 0 (.file (ascii "f") 1 .nil) (oneFileEach n)

/-- A root with that many of them. -/
def oneFileTree (n : ℕ) : Tree := .dir 0 (oneFileEach n)

/-- The system with this tree at `r`. -/
def oneFileFiles (n : ℕ) : DuFiles where
  lstat path := if path.count (chr '/') = 2 then some ⟨1, false⟩ else some ⟨0, true⟩
  opendir path := if path.count (chr '/') = 1 then some [ascii "f"] else (oneFileEach n).names
  malloc := true

/-- Two directories. -/
theorem duBytes_eq_example :
  duBytes (oneFileFiles 2) (ascii "r") = UInt64.ofNat (oneFileTree 2).counted ∧
    (oneFileTree 2).counted = (oneFileTree 2).sizes
  := by
  have hholds : (oneFileTree 2).Holds (oneFileFiles 2) (ascii "r") := by
    refine ⟨by decide, by decide, by decide⟩
  have hfits : (oneFileTree 2).Fits (ascii "r") := by
    refine ⟨by decide, by decide⟩
  have h := duBytes_eq hholds hfits (by decide)
  refine ⟨h.1, h.2.2 ?_⟩
  apply Listing.roomy_of_dirs
  decide

/-- Of 65 directories in one directory, the walk does not enter the last. -/
theorem duBytes_not :
  ¬ ∀ (fs : DuFiles) (root : Bytes) (t : Tree), t.Holds fs root → t.Fits root →
    t.count < duMaxEntries → duBytes fs root = UInt64.ofNat t.sizes
  := by
  intro h
  have hholds : (oneFileTree 65).Holds (oneFileFiles 65) (ascii "r") := by
    refine ⟨by decide +kernel, by decide +kernel, by decide +kernel⟩
  have hfits : (oneFileTree 65).Fits (ascii "r") := by
    refine ⟨by decide, by decide +kernel⟩
  have hcount : (oneFileTree 65).count < duMaxEntries := by
    decide
  have hall := h _ _ _ hholds hfits hcount
  rw [duBytes_counted hholds hfits hcount] at hall
  revert hall
  decide

end Keybench
