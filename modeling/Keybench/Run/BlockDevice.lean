import Keybench.Libc.Numbers

/-!
# The disk under the data directory

What the system probe reports of the disk under the data directory.  `dataMount` finds the mount
that backs the directory, `baseBlock` reduces the path of its device to the name of the disk,
and `sysDisk` reads two files of the disk under `/sys/block`.

The reduction knows two families of disks whose partitions are marked with a `p`, and takes the
digits off the end of every other name.  It finds the disk from the disk's own path and from the
path of a partition exactly when a disk outside the families does not end in a digit
(`findsDisk_iff`).
-/

namespace Keybench

/-! ## The mount -/

/-- An entry of the mount table. -/
structure Mntent where
  /-- `mnt_fsname`. -/
  fsname : Bytes
  /-- `mnt_dir`. -/
  dir : Bytes
  /-- `mnt_type`. -/
  type : Bytes

/-- The mount point is a prefix of the path and ends where a component of the path does. -/
def Mntent.backs (rp : Bytes) (e : Mntent) : Bool :=
  e.dir.isPrefixOf rp &&
    (e.dir.length = 1 || (rp.drop e.dir.length).head? = some (chr '/') ||
      (rp.drop e.dir.length).isEmpty)

/-- One round of the loop of `data_mount`: the length of the best mount point and its entry. -/
def mountStep (rp : Bytes) (st : ℕ × Option Mntent) (e : Mntent) : ℕ × Option Mntent :=
  if e.dir.length ≥ st.1 ∧ e.backs rp then (e.dir.length, some e) else st

/-- The host of a data directory. -/
structure DiskHost where
  /-- `realpath`, where it succeeds. -/
  realpath : Bytes → Option Bytes
  /-- The entries of `/proc/mounts`, when it can be opened. -/
  mounts : Option (List Mntent)
  /-- The files that can be opened, with their contents. -/
  files : Bytes → Option Bytes

/-- The path `data_mount` compares: the real path, or the directory cut to `PATH_MAX`. -/
def DiskHost.mountPath (host : DiskHost) (dir : Bytes) : Bytes :=
  (host.realpath dir).getD (snprintfStr 4096 dir)

/-- `data_mount`: device, filesystem type and mount point, each cut to its buffer. -/
def DiskHost.dataMount (host : DiskHost) (dir : Bytes) (devn fsn mntn : ℕ) :
    Option (Bytes × Bytes × Bytes) := do
  let mounts ← host.mounts
  let e ← (mounts.foldl (mountStep (host.mountPath dir)) (0, none)).2
  some (snprintfStr devn e.fsname, snprintfStr fsn e.type, snprintfStr mntn e.dir)

/-! ## The disk -/

/-- The names of partitions of these disks end in a `p` and a number. -/
def partitionsMarked (s : Bytes) : Bool :=
  (ascii "nvme").isPrefixOf s || (ascii "mmcblk").isPrefixOf s

/-- The name without the last `p` and what follows, when that is a digit. -/
def cutMarked (s : Bytes) : Bytes :=
  match Text.splitLast (chr 'p') s with
  | some (pre, post) => if post.head?.any isdigit then pre else s
  | none => s

/-- What `base_block` makes of the name in its buffer. -/
def diskOf (out : Bytes) : Bytes :=
  if partitionsMarked out then cutMarked out else out.rdropWhile isdigit

/-- `base_block` with a buffer of `n` bytes. -/
def baseBlock (dev : Bytes) (n : ℕ) : Bytes :=
  let p := if (ascii "/dev/").isPrefixOf dev then dev.drop 5 else dev
  diskOf (snprintfStr n p)

/-- The file that tells whether the disk is rotational. -/
def rotationalPath (base : Bytes) : Bytes :=
  snprintfStr 256 (ascii "/sys/block/" ++ base ++ ascii "/queue/rotational")

/-- The file that holds the model of the disk. -/
def modelPath (base : Bytes) : Bytes :=
  snprintfStr 256 (ascii "/sys/block/" ++ base ++ ascii "/device/model")

/-- The string in a buffer of `n` bytes after one `fgets`. -/
def fgets (n : ℕ) (text : Bytes) : Option Bytes :=
  if text = [] then none else some (cString (Text.readLine (chr '\n') (n - 1) text).1)

/-- `atoi`: the `long` of `strtol` as an `int`. -/
def atoi (s : Bytes) : ℤ := (strtol s).value.bmod (2 ^ 32)

/-- `sys_disk`: the names and values handed to the callback. -/
def DiskHost.sysDisk (host : DiskHost) (dir : Bytes) : List (Bytes × Bytes) :=
  match host.dataMount dir 128 32 256 with
  | none => []
  | some (dev, fstype, mnt) =>
    let b := snprintfStr 512 (dev ++ ascii " on " ++ mnt ++ ascii " (" ++ fstype ++ ascii ")")
    let base := baseBlock dev 128
    let disk :=
      match (host.files (rotationalPath base)).bind (fgets 128) with
      | some line =>
        [(ascii "data_disk", if atoi line ≠ 0 then ascii "rotational (HDD)"
          else ascii "solid state")]
      | none => []
    let model :=
      match (host.files (modelPath base)).bind (fgets 128) with
      | some line =>
        let line := (line.takeWhile (fun c => c ≠ chr '\n')).rdropWhile (fun c => c = chr ' ')
        if line.length > 0 then [(ascii "data_disk_model", line)] else []
      | none => []
    (ascii "data_dev", b) :: disk ++ model

/-! ## The mount that backs a path -/

/-- What the loop of `data_mount` knows after some entries: no entry backs the path, or the best
entry does, and the entries that do are no longer before it and shorter after it. -/
def BestMount (rp : Bytes) (mounts : List Mntent) : ℕ × Option Mntent → Prop
  | (best, none) => best = 0 ∧ ∀ e ∈ mounts, e.backs rp = false
  | (best, some e) => best = e.dir.length ∧ e.backs rp = true ∧
    ∃ before after, mounts = before ++ e :: after ∧
      (∀ f ∈ before, f.backs rp = true → f.dir.length ≤ e.dir.length) ∧
      ∀ f ∈ after, f.backs rp = true → f.dir.length < e.dir.length

/-- One more entry. -/
theorem BestMount.step {rp : Bytes} {mounts : List Mntent} {st : ℕ × Option Mntent}
    (h : BestMount rp mounts st) (e : Mntent) :
  BestMount rp (mounts ++ [e]) (mountStep rp st e)
  := by
  obtain ⟨best, found⟩ := st
  rw [mountStep]
  split_ifs with htake
  · obtain ⟨hlen, hback⟩ := htake
    use rfl, hback, mounts, [], rfl
    constructor
    · intro f hf hfback
      cases found with
      | none =>
        obtain ⟨-, hnone⟩ := h
        rw [hnone f hf] at hfback
        cases hfback
      | some g =>
        obtain ⟨rfl, -, before, after, rfl, hbefore, hafter⟩ := h
        rcases List.mem_append.mp hf with hf | hf
        · apply (hbefore f hf hfback).trans hlen
        · rcases List.mem_cons.mp hf with rfl | hf
          · apply hlen
          · apply (hafter f hf hfback).le.trans hlen
    · intro f hf
      cases hf
  · cases found with
    | none =>
      obtain ⟨rfl, hnone⟩ := h
      use rfl
      intro f hf
      rcases List.mem_append.mp hf with hf | hf
      · apply hnone f hf
      · obtain rfl := List.mem_singleton.mp hf
        simpa using htake
    | some g =>
      obtain ⟨rfl, hback, before, after, rfl, hbefore, hafter⟩ := h
      use rfl, hback, before, after ++ [e]
      use by simp, hbefore
      intro f hf hfback
      rcases List.mem_append.mp hf with hf | hf
      · apply hafter f hf hfback
      · obtain rfl := List.mem_singleton.mp hf
        by_contra hlt
        apply htake ⟨not_lt.mp hlt, hfback⟩

/-- The loop of `data_mount` finds the last of the longest mount points that back the path. -/
theorem bestMount_foldl (rp : Bytes) (mounts : List Mntent) :
  BestMount rp mounts (mounts.foldl (mountStep rp) (0, none))
  := by
  induction mounts using List.reverseRecOn with
  | nil => exact ⟨rfl, fun e he => absurd he List.not_mem_nil⟩
  | append_singleton mounts e ih =>
    rw [List.foldl_append]
    apply ih.step e

/-! ## Names of disks and partitions -/

/-- The name ends in a digit. -/
def endsInDigit (d : Bytes) : Bool := d.getLast?.any isdigit

/-- The name of a partition: a `p` keeps the number apart from a disk that ends in a digit. -/
def partitionName (d : Bytes) (n : ℕ) : Bytes :=
  if endsInDigit d then d ++ chr 'p' :: fmtNat n else d ++ fmtNat n

/-- The path of a device. -/
def devPath (name : Bytes) : Bytes := ascii "/dev/" ++ name

/-- The last `p` of the name is followed by a digit. -/
def HasMark (d : Bytes) : Prop :=
  ∃ (pre : Bytes) (x : UInt8) (post : Bytes),
    d = pre ++ chr 'p' :: x :: post ∧ isdigit x = true ∧ chr 'p' ∉ post

/-- `base_block` on a device path works on the name that fits the buffer. -/
theorem baseBlock_devPath (name : Bytes) (n : ℕ) :
  baseBlock (devPath name) n = diskOf (name.take (n - 1))
  := by
  have hpre : (ascii "/dev/").isPrefixOf (devPath name) = true := by
    rw [List.isPrefixOf_iff_prefix]
    apply List.prefix_append
  have hdrop : (devPath name).drop 5 = name := rfl
  simp only [baseBlock, hpre, if_true, hdrop, snprintfStr]

theorem endsInDigit_iff {d : Bytes} :
  endsInDigit d = true ↔ ∃ a x, d = a ++ [x] ∧ isdigit x = true
  := by
  rw [endsInDigit, Option.any_eq_true]
  constructor
  · rintro ⟨x, hlast, hx⟩
    obtain ⟨a, rfl⟩ := List.getLast?_eq_some_iff.mp hlast
    use a, x
  · rintro ⟨a, x, rfl, hx⟩
    use x, List.getLast?_concat, hx

/-- A word without digits begins a text exactly when it begins the part up to a digit. -/
theorem isPrefixOf_append {w d t : Bytes} (hw : w.all (fun c => !isdigit c) = true)
    (hcut : endsInDigit d = true ∨ ∃ x r, t = x :: r ∧ isdigit x = true) :
  w.isPrefixOf (d ++ t) = w.isPrefixOf d
  := by
  rw [Bool.eq_iff_iff, List.isPrefixOf_iff_prefix, List.isPrefixOf_iff_prefix]
  have hnot : ∀ c ∈ w, isdigit c ≠ true := by
    simpa using hw
  constructor
  · intro h
    rcases Nat.le_total w.length d.length with hle | hle
    · apply List.prefix_of_prefix_length_le h (List.prefix_append d t) hle
    · obtain ⟨r, rfl⟩ := List.prefix_of_prefix_length_le (List.prefix_append d t) h hle
      have hr : r <+: t := (List.prefix_append_right_inj d).mp h
      rcases hcut with hd | ⟨x, u, rfl, hx⟩
      · obtain ⟨a, x, rfl, hx⟩ := endsInDigit_iff.mp hd
        apply absurd hx (hnot x (by simp))
      · cases r with
        | nil => rw [List.append_nil]
        | cons y r =>
          obtain ⟨rfl, -⟩ := List.cons_prefix_cons.mp hr
          apply absurd hx (hnot y (by simp))
  · intro h
    apply h.trans (List.prefix_append d t)

/-- What follows a digit, or begins with one, does not change the family of a disk. -/
theorem partitionsMarked_append {d t : Bytes}
    (hcut : endsInDigit d = true ∨ ∃ x r, t = x :: r ∧ isdigit x = true) :
  partitionsMarked (d ++ t) = partitionsMarked d
  := by
  rw [partitionsMarked, partitionsMarked, isPrefixOf_append (by decide) hcut,
    isPrefixOf_append (by decide) hcut]

/-! ## Taking marks and numbers off -/

/-- The last `p` and a number are cut off. -/
theorem cutMarked_append {x : UInt8} (hx : isdigit x = true) (d : Bytes) {t : Bytes}
    (ht : chr 'p' ∉ t) :
  cutMarked (d ++ chr 'p' :: x :: t) = d
  := by
  have hp : chr 'p' ∉ x :: t := by
    intro hmem
    rcases List.mem_cons.mp hmem with rfl | hmem
    · cases hx
    · apply ht hmem
  rw [cutMarked, Text.splitLast_append d hp]
  simp [hx]

/-- A name is left alone exactly when its last `p` is not followed by a digit. -/
theorem cutMarked_eq_self_iff {d : Bytes} :
  cutMarked d = d ↔ ¬ HasMark d
  := by
  constructor
  · rintro h ⟨pre, x, post, rfl, hx, hp⟩
    rw [cutMarked_append hx pre hp] at h
    simp at h
  · intro hmark
    rw [cutMarked]
    split
    case h_1 pre post hsplit =>
      obtain ⟨rfl, hp⟩ := Text.splitLast_eq_some_iff.mp hsplit
      apply if_neg
      rw [Option.any_eq_true]
      rintro ⟨x, hhead, hx⟩
      obtain ⟨t, rfl⟩ := List.head?_eq_some_iff.mp hhead
      apply hmark
      use pre, x, t, rfl, hx
      intro hmem
      apply hp (List.mem_cons_of_mem x hmem)
    case h_2 => rfl

/-- Cutting takes nothing off, or a `p` and what follows. -/
theorem cutMarked_append_ne {d t : Bytes} (hne : t ≠ []) (ht : ∀ c ∈ t, isdigit c = true) :
  cutMarked (d ++ t) ≠ d
  := by
  rw [cutMarked]
  split
  case h_1 pre post hsplit =>
    obtain ⟨hsplit, -⟩ := Text.splitLast_eq_some_iff.mp hsplit
    split_ifs
    · rintro rfl
      have hmem : chr 'p' ∈ t := by simp [List.append_cancel_left hsplit]
      cases ht _ hmem
    · simpa using hne
  case h_2 => simpa using hne

/-- Digits at the end are taken off. -/
theorem rdropWhile_append {t : Bytes} (ht : ∀ c ∈ t, isdigit c = true) (d : Bytes) :
  (d ++ t).rdropWhile isdigit = d.rdropWhile isdigit
  := by
  rw [List.rdropWhile, List.reverse_append, List.dropWhile_append_of_pos (by simpa using ht),
    List.rdropWhile]

/-- A name is left alone exactly when it does not end in a digit. -/
theorem rdropWhile_eq_self_iff {d : Bytes} :
  d.rdropWhile isdigit = d ↔ endsInDigit d = false
  := by
  have hends : endsInDigit d = false ↔ ¬ ∃ a x, d = a ++ [x] ∧ isdigit x = true := by
    rw [Bool.eq_false_iff, ne_eq, endsInDigit_iff]
  rw [List.rdropWhile_eq_self_iff, hends]
  constructor
  · rintro h ⟨a, x, rfl, hx⟩
    apply h (by simp)
    simpa using hx
  · intro h hne hx
    apply h
    use d.dropLast, d.getLast hne, (List.dropLast_append_getLast hne).symm, hx

/-- The name of a disk is left alone when the disk is in a marked family and the last `p` is not
followed by a digit, and when it is not and does not end in a digit. -/
theorem diskOf_self_iff (d : Bytes) :
  diskOf d = d ↔
    (partitionsMarked d = true ∧ ¬ HasMark d) ∨ (partitionsMarked d = false ∧ endsInDigit d = false)
  := by
  rw [diskOf]
  cases hm : partitionsMarked d with
  | true =>
    rw [if_pos rfl, cutMarked_eq_self_iff]
    simp
  | false =>
    rw [if_neg Bool.false_ne_true, rdropWhile_eq_self_iff]
    simp

/-- The disk is found from a partition with the number `t` exactly when the disk is in a marked
family and ends in a digit, and when neither holds. -/
theorem diskOf_partition_iff (d : Bytes) {t : Bytes} (hne : t ≠ [])
    (ht : ∀ c ∈ t, isdigit c = true) :
  diskOf (if endsInDigit d then d ++ chr 'p' :: t else d ++ t) = d
    ↔ partitionsMarked d = endsInDigit d
  := by
  obtain ⟨x, t, rfl⟩ := List.exists_cons_of_ne_nil hne
  have hx : isdigit x = true := ht x List.mem_cons_self
  have hp : chr 'p' ∉ t := by
    intro hmem
    cases ht _ (List.mem_cons_of_mem x hmem)
  cases hd : endsInDigit d with
  | true =>
    rw [if_pos rfl, diskOf, partitionsMarked_append (Or.inl hd)]
    cases hm : partitionsMarked d with
    | true =>
      rw [if_pos rfl, cutMarked_append hx d hp]
      simp
    | false =>
      -- the mark stays
      have hmark : (d ++ [chr 'p']).rdropWhile isdigit = d ++ [chr 'p'] :=
        List.rdropWhile_concat_neg _ _ _ (by decide)
      rw [if_neg Bool.false_ne_true, ← List.singleton_append, ← List.append_assoc,
        rdropWhile_append ht, hmark]
      simp
  | false =>
    rw [if_neg Bool.false_ne_true, diskOf, partitionsMarked_append (Or.inr ⟨x, t, rfl, hx⟩)]
    cases hm : partitionsMarked d with
    | true =>
      rw [if_pos rfl]
      apply iff_of_false (cutMarked_append_ne hne ht)
      simp
    | false =>
      rw [if_neg Bool.false_ne_true, rdropWhile_append ht]
      apply iff_of_true (rdropWhile_eq_self_iff.mpr hd) rfl

/-- A buffer with room for the disk, a mark and a digit keeps a digit of the partition. -/
theorem take_partitionName (d : Bytes) (n : ℕ) {k : ℕ} (hk : d.length + 2 ≤ k) :
  ∃ t, t ≠ [] ∧ (∀ c ∈ t, isdigit c = true) ∧
    (partitionName d n).take k = if endsInDigit d then d ++ chr 'p' :: t else d ++ t
  := by
  obtain ⟨m, rfl⟩ := Nat.exists_eq_add_of_le hk
  obtain ⟨x, u, hfmt⟩ := List.exists_cons_of_ne_nil (fmtNat_ne_nil n)
  have hdigits : ∀ c ∈ x :: u, isdigit c = true := by
    intro c hc
    rw [← hfmt] at hc
    apply isdigit_of_mem_fmtNat hc
  have htake : ∀ s : Bytes, (d ++ s).take (d.length + 2 + m) = d ++ s.take (m + 2) := by
    intro s
    rw [List.take_append, List.take_of_length_le (by omega)]
    congr 2
    omega
  rw [partitionName, hfmt]
  split_ifs with hd
  · use x :: u.take m, List.cons_ne_nil _ _
    constructor
    · intro c hc
      apply hdigits c (List.mem_of_mem_take (i := m + 1) hc)
    · rw [htake]
      rfl
  · use x :: u.take (m + 1), List.cons_ne_nil _ _
    constructor
    · intro c hc
      apply hdigits c (List.mem_of_mem_take (i := m + 2) hc)
    · rw [htake]
      rfl

/-- The disk is found from a partition in a buffer that has room for it. -/
theorem diskOf_take_partition_iff (d : Bytes) (n : ℕ) {k : ℕ} (hk : d.length + 2 ≤ k) :
  diskOf ((partitionName d n).take k) = d ↔ partitionsMarked d = endsInDigit d
  := by
  obtain ⟨t, hne, ht, htake⟩ := take_partitionName d n hk
  rw [htake]
  apply diskOf_partition_iff d hne ht

/-! ## The disk of a partition -/

/-- `sys_disk` finds the disk `d` from the device `name`: `base_block` reduces the path of the
device to `d`, and the files looked up are those of `d`. -/
def FindsDisk (d name : Bytes) : Prop :=
  baseBlock (devPath name) 128 = d ∧
    rotationalPath (baseBlock (snprintfStr 128 (devPath name)) 128)
      = ascii "/sys/block/" ++ d ++ ascii "/queue/rotational" ∧
    modelPath (baseBlock (snprintfStr 128 (devPath name)) 128)
      = ascii "/sys/block/" ++ d ++ ascii "/device/model"

/-- The device path in the buffer of `sys_disk` is that of a shortened name. -/
theorem snprintfStr_devPath (name : Bytes) :
  snprintfStr 128 (devPath name) = devPath (name.take 122)
  := rfl

/-- The disk is found when it is found from what the two buffers hold of the name. -/
theorem findsDisk_of_diskOf {d name : Bytes} (hfit : d.length + 7 < 128)
    (h : ∀ k, d.length + 2 ≤ k → diskOf (name.take k) = d) :
  FindsDisk d name
  := by
  have hshort : (name.take 122).take (128 - 1) = name.take 122 := by
    rw [List.take_take]
    rfl
  have hbase : baseBlock (snprintfStr 128 (devPath name)) 128 = d := by
    rw [snprintfStr_devPath, baseBlock_devPath, hshort]
    apply h 122
    omega
  have hlen : (ascii "/sys/block/").length = 11 ∧ (ascii "/queue/rotational").length = 17 ∧
      (ascii "/device/model").length = 13 := by decide
  rw [FindsDisk, hbase, baseBlock_devPath]
  and_intros
  · apply h
    omega
  · apply List.take_of_length_le
    simp only [List.length_append, hlen]
    omega
  · apply List.take_of_length_le
    simp only [List.length_append, hlen]
    omega

/-- A disk is found from its own path exactly when its name is left alone. -/
theorem findsDisk_self_iff {d : Bytes} (hfit : d.length + 7 < 128) :
  FindsDisk d d ↔ diskOf d = d
  := by
  have hself : ∀ k, d.length + 2 ≤ k → d.take k = d := by
    intro k hk
    apply List.take_of_length_le
    omega
  constructor
  · rintro ⟨h, -⟩
    rw [baseBlock_devPath, hself _ (by omega)] at h
    apply h
  · intro h
    apply findsDisk_of_diskOf hfit
    intro k hk
    rw [hself k hk, h]

/-- A disk is found from the path of a partition exactly when the disk is in a marked family and
ends in a digit, and when neither holds. -/
theorem findsDisk_partition_iff {d : Bytes} (hfit : d.length + 7 < 128) (n : ℕ) :
  FindsDisk d (partitionName d n) ↔ partitionsMarked d = endsInDigit d
  := by
  constructor
  · rintro ⟨h, -⟩
    rw [baseBlock_devPath] at h
    apply (diskOf_take_partition_iff d n _).mp h
    omega
  · intro h
    apply findsDisk_of_diskOf hfit
    intro k hk
    apply (diskOf_take_partition_iff d n hk).mpr h

/-- A disk is found from its own path and from the path of a partition exactly when it is in a
marked family, ends in a digit and has no mark itself, and when it is in no marked family and
does not end in a digit.  The name and two characters of the partition fit the buffer. -/
theorem findsDisk_iff (d : Bytes) (n : ℕ) (hfit : d.length + 7 < 128) :
  (FindsDisk d d ∧ FindsDisk d (partitionName d n)) ↔
    (partitionsMarked d = true ∧ endsInDigit d = true ∧ ¬ HasMark d) ∨
      (partitionsMarked d = false ∧ endsInDigit d = false)
  := by
  rw [findsDisk_self_iff hfit, findsDisk_partition_iff hfit n, diskOf_self_iff]
  cases partitionsMarked d with
  | true =>
    cases endsInDigit d with
    | true => simp
    | false => simp
  | false =>
    cases endsInDigit d with
    | true => simp
    | false => simp

/-- The third partition of the first SCSI disk. -/
theorem findsDisk_iff_example :
  FindsDisk (ascii "sda") (ascii "sda") ∧ FindsDisk (ascii "sda") (partitionName (ascii "sda") 3)
  := by
  apply (findsDisk_iff (ascii "sda") 3 (by decide)).mpr
  right
  decide

/-- The first software RAID array loses its number, and its first partition keeps the mark. -/
theorem not_findsDisk :
  baseBlock (devPath (ascii "md0")) 128 = ascii "md" ∧
    baseBlock (devPath (ascii "md0p1")) 128 = ascii "md0p" ∧
    ¬ ∀ (d : Bytes) (n : ℕ), d.length + 7 < 128 →
      FindsDisk d d ∧ FindsDisk d (partitionName d n)
  := by
  have hdisk : baseBlock (devPath (ascii "md0")) 128 = ascii "md" := by decide
  use hdisk, by decide
  intro h
  obtain ⟨⟨hself, -⟩, -⟩ := h (ascii "md0") 1 (by decide)
  rw [hdisk] at hself
  revert hself
  decide

/-- `data_mount` fails when no mount backs the directory, and otherwise takes the device of the
last of the longest mount points that do. -/
theorem DiskHost.dataMount_spec (host : DiskHost) {mounts : List Mntent}
    (h : host.mounts = some mounts) (dir : Bytes) (devn fsn mntn : ℕ) :
  (host.dataMount dir devn fsn mntn = none ∧
      ∀ e ∈ mounts, e.backs (host.mountPath dir) = false) ∨
    ∃ e, BestMount (host.mountPath dir) mounts (e.dir.length, some e) ∧
      host.dataMount dir devn fsn mntn
        = some (snprintfStr devn e.fsname, snprintfStr fsn e.type, snprintfStr mntn e.dir)
  := by
  have hbest := bestMount_foldl (host.mountPath dir) mounts
  simp only [dataMount, h, Option.bind_eq_bind, Option.bind_some]
  rcases hst : mounts.foldl (mountStep (host.mountPath dir)) (0, none) with ⟨best, _ | e⟩
  · rw [hst] at hbest
    left
    use rfl, hbest.2
  · rw [hst] at hbest
    obtain rfl : best = e.dir.length := hbest.1
    right
    use e, hbest
    rfl

/-- Where the disk is found from the device of the mount that backs the directory, what
`sys_disk` reports depends on the two files of the disk only. -/
theorem DiskHost.sysDisk_congr {d name dir : Bytes} (h : FindsDisk d name) {host : DiskHost}
    {fstype mnt : Bytes} (hdev : host.dataMount dir 128 32 256
      = some (snprintfStr 128 (devPath name), fstype, mnt)) {files : Bytes → Option Bytes}
    (hrot : files (ascii "/sys/block/" ++ d ++ ascii "/queue/rotational")
      = host.files (ascii "/sys/block/" ++ d ++ ascii "/queue/rotational"))
    (hmodel : files (ascii "/sys/block/" ++ d ++ ascii "/device/model")
      = host.files (ascii "/sys/block/" ++ d ++ ascii "/device/model")) :
  { host with files := files : DiskHost }.sysDisk dir = host.sysDisk dir
  := by
  obtain ⟨-, hrotpath, hmodelpath⟩ := h
  have hdev' : { host with files := files : DiskHost }.dataMount dir 128 32 256
      = some (snprintfStr 128 (devPath name), fstype, mnt) := hdev
  simp only [sysDisk, hdev, hdev', hrotpath, hmodelpath, hrot, hmodel]

end Keybench
