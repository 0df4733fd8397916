import Keybench.Config.Grammar

/-!
# What a config file can store

The names, keys and values that a line can give.  No comment starts inside them, they hold no
newline, and names and keys hold no closing bracket and no equals sign.  A value can begin with
a comment sign, when it follows the equals sign directly.  A stored name can end with a space,
when the name buffer cut it there.

A line written as `key = value` gives the stored key back, and the value up to its comment
(`parseLine_written`); a line written as `[name]` gives the name back without its spaces
(`parseLine_header`).
-/

namespace Keybench

/-! ## Texts without a comment -/

/-- No comment starts in a text; `start` says that one could start at its first byte. -/
def Uncut (start : Bool) (s : Bytes) : Prop := cutComment start s = s

/-- Whether a comment can start after a text. -/
def startAfter (start : Bool) : Bytes → Bool
  | [] => start
  | c :: s => startAfter (isspace c) s

theorem uncut_nil (start : Bool) :
  Uncut start []
  := rfl

theorem uncut_cons {start : Bool} {c : UInt8} {s : Bytes} :
  Uncut start (c :: s) ↔ (isCommentSign c = true → start = false) ∧ Uncut (isspace c) s
  := by
  rw [Uncut, cutComment, Uncut]
  cases start with
  | false => simp
  | true =>
    rw [isCommentSign]
    by_cases hc : c = chr '#' ∨ c = chr ';'
    · simp [hc]
    · simp [hc]

theorem uncut_append {start : Bool} {a b : Bytes} :
  Uncut start (a ++ b) ↔ Uncut start a ∧ Uncut (startAfter start a) b
  := by
  induction a generalizing start with
  | nil => simp [uncut_nil, startAfter]
  | cons c a ih => rw [List.cons_append, uncut_cons, uncut_cons, ih, and_assoc, startAfter]

/-- A text in which no comment starts anywhere has none in any place. -/
theorem Uncut.weaken {start : Bool} {s : Bytes} (h : Uncut true s) :
  Uncut start s
  := by
  cases s with
  | nil => rfl
  | cons c s =>
    obtain ⟨hc, hs⟩ := uncut_cons.mp h
    apply uncut_cons.mpr
    constructor
    · intro hsign
      cases hc hsign
    · apply hs

theorem Uncut.notStart {start : Bool} {s : Bytes} (h : Uncut start s) :
  Uncut false s
  := by
  cases start with
  | false => exact h
  | true => exact h.weaken

/-- No comment starts before the place where the comment was cut. -/
theorem uncut_cutComment (start : Bool) (s : Bytes) :
  Uncut start (cutComment start s)
  := by
  induction s generalizing start with
  | nil => exact uncut_nil start
  | cons c s ih =>
    rw [cutComment]
    split
    · exact uncut_nil start
    · next h =>
      apply uncut_cons.mpr
      constructor
      · intro hsign
        rw [isCommentSign] at hsign
        simpa [hsign] using h
      · apply ih

/-- Cutting the comment of a text that begins without one. -/
theorem cutComment_append {start : Bool} {a : Bytes} (h : Uncut start a) (b : Bytes) :
  cutComment start (a ++ b) = a ++ cutComment (startAfter start a) b
  := by
  induction a generalizing start with
  | nil => rfl
  | cons c a ih =>
    obtain ⟨hc, ha⟩ := uncut_cons.mp h
    have hno : ¬ (((decide (c = chr '#') || decide (c = chr ';')) && start) = true) := by
      intro hcut
      rw [Bool.and_eq_true] at hcut
      rw [hc hcut.1] at hcut
      cases hcut.2
    rw [List.cons_append, cutComment, if_neg hno, ih ha, startAfter, List.cons_append]

/-- A comment can start after spaces. -/
theorem startAfter_of_isspace {s : Bytes} (h : ∀ c ∈ s, isspace c = true) :
  startAfter true s = true
  := by
  induction s with
  | nil => rfl
  | cons c s ih =>
    rw [startAfter, h c List.mem_cons_self]
    apply ih (fun x hx => h x (List.mem_cons_of_mem _ hx))

/-- A comment can start after an equals sign and a space. -/
theorem startAfter_equals (start : Bool) (s : Bytes) :
  startAfter start (s ++ ascii "= ") = true
  := by
  induction s generalizing start with
  | nil => cases start <;> rfl
  | cons c s ih => apply ih

/-! ## What a line gives -/

/-- The part of a line that the grammar keeps is what the loop keeps. -/
theorem uncommented_eq (line : Bytes) :
  uncommented line = cutComment true line
  := by
  rw [cutComment_eq, uncommented]

/-- The text of a line without its comment and the spaces around it. -/
theorem uncut_trim (line : Bytes) :
  Uncut true (Text.trimBy isspace (uncommented line))
  := by
  have hsplit := List.takeWhile_append_dropWhile (p := isspace) (l := uncommented line)
  have huncut : Uncut true (uncommented line) := by
    rw [uncommented_eq]
    apply uncut_cutComment
  rw [← hsplit, uncut_append,
    startAfter_of_isspace (fun c hc => List.mem_takeWhile_imp hc)] at huncut
  obtain ⟨w, hw⟩ := List.rdropWhile_prefix isspace ((uncommented line).dropWhile isspace)
  have hdrop := huncut.2
  rw [← hw, uncut_append] at hdrop
  apply hdrop.1

/-- What a line can give. -/
def StoredText (s : Bytes) : Prop := chr '\n' ∉ s ∧ 0 ∉ s

/-- A key and value that a line can give. -/
structure StoredEntry (e : Bytes × Bytes) : Prop where
  /-- The key has no spaces around it. -/
  keyTrimmed : Text.trimBy isspace e.1 = e.1
  /-- No comment starts in the key. -/
  keyUncut : Uncut true e.1
  /-- The key has no equals sign. -/
  keyNoEquals : chr '=' ∉ e.1
  /-- The key does not look like a section. -/
  keyNoBracket : e.1.head? ≠ some (chr '[')
  /-- The value has no spaces around it. -/
  valTrimmed : Text.trimBy isspace e.2 = e.2
  /-- No comment starts in the value after its first byte. -/
  valUncut : Uncut false e.2
  /-- The key is on one line. -/
  keyText : StoredText e.1
  /-- The value is on one line. -/
  valText : StoredText e.2

/-- A name that can be stored: what a line can give, perhaps cut. -/
structure StoredName (name : Bytes) : Prop where
  /-- The name has no space before it. -/
  noSpaceBefore : name.dropWhile isspace = name
  /-- No comment starts in the name after its first byte. -/
  uncut : Uncut false name
  /-- The name has no closing bracket. -/
  noBracket : chr ']' ∉ name
  /-- The name is on one line. -/
  text : StoredText name

/-- What an item can hold. -/
def StoredItem : CfgItem → Prop
  | .select name => StoredName name
  | .entry k v => StoredEntry (k, v)

/-- A part of a text in which no comment starts. -/
theorem Uncut.part {start : Bool} {a b c : Bytes} (h : Uncut start (a ++ (b ++ c))) :
  Uncut false b
  := by
  rw [uncut_append, uncut_append] at h
  apply h.2.1.notStart

/-- No comment starts in what trimming leaves, after its first byte. -/
theorem Uncut.trimBy {start : Bool} {s : Bytes} (h : Uncut start s) :
  Uncut false (Text.trimBy isspace s)
  := by
  obtain ⟨a, b, hab, -⟩ := Text.exists_append_trimBy (p := isspace) s
  rw [hab] at h
  apply h.part

/-- A part of a line is on one line. -/
theorem StoredText.mono {s t : Bytes} (h : StoredText s) (hsub : ∀ x ∈ t, x ∈ s) :
  StoredText t
  := by
  constructor
  · intro hmem
    apply h.1 (hsub _ hmem)
  · intro hmem
    apply h.2 (hsub _ hmem)

/-- The name of a section line can be stored. -/
theorem storedName_of_line {line s : Bytes} (hline : StoredText line)
    (huncut : Uncut true (chr '[' :: s)) (hsub : ∀ x ∈ chr '[' :: s, x ∈ line) :
  StoredName (Text.trimBy isspace (s.takeWhile (fun x => x ≠ chr ']')))
  := by
  have hsplit := List.takeWhile_append_dropWhile (p := fun x => x ≠ chr ']') (l := s)
  have hs := (uncut_cons.mp huncut).2
  rw [← hsplit, uncut_append] at hs
  constructor
  · apply Text.dropWhile_trimBy
  · apply hs.1.trimBy
  · intro hmem
    have hmem := List.mem_takeWhile_imp (Text.mem_of_mem_trimBy hmem)
    simp at hmem
  · apply hline.mono
    intro x hx
    apply hsub x
    apply List.mem_cons_of_mem
    apply (List.takeWhile_prefix _).subset (Text.mem_of_mem_trimBy hx)

/-- The two sides of an equals sign can be stored. -/
theorem storedEntry_of_line {line a b : Bytes} (hline : StoredText line) (ha : chr '=' ∉ a)
    (huncut : Uncut true (a ++ chr '=' :: b))
    (hdrop : (a ++ chr '=' :: b).dropWhile isspace = a ++ chr '=' :: b)
    (hhead : a.head? ≠ some (chr '[')) (hsub : ∀ x ∈ a ++ chr '=' :: b, x ∈ line) :
  StoredEntry (Text.trimBy isspace a, Text.trimBy isspace b)
  := by
  have hadrop := Text.dropWhile_of_append hdrop
  obtain ⟨w, hw⟩ : Text.trimBy isspace a <+: a := by
    rw [Text.trimBy, hadrop]
    apply List.rdropWhile_prefix
  obtain ⟨hua, hub⟩ := uncut_append.mp huncut
  constructor
  · apply Text.trimBy_trimBy
  · rw [← hw] at hua
    apply (uncut_append.mp hua).1
  · intro hmem
    apply ha (Text.mem_of_mem_trimBy hmem)
  · intro hkey
    apply hhead
    rw [← hw, List.head?_append, hkey, Option.some_or]
  · apply Text.trimBy_trimBy
  · apply (uncut_cons.mp hub).2.trimBy
  · apply hline.mono
    intro x hx
    apply hsub x (List.mem_append_left _ (Text.mem_of_mem_trimBy hx))
  · apply hline.mono
    intro x hx
    apply hsub x (List.mem_append_right _ (List.mem_cons_of_mem _ (Text.mem_of_mem_trimBy hx)))

/-- The items of lines hold what can be stored. -/
theorem storedItem_of_parseLine {line : Bytes} (hline : StoredText line) {item : CfgItem}
    (h : parseLine line = some item) :
  StoredItem item
  := by
  have huncut := uncut_trim line
  have hdrop := Text.dropWhile_trimBy (p := isspace) (uncommented line)
  have hsub : ∀ x ∈ Text.trimBy isspace (uncommented line), x ∈ line := by
    intro x hx
    have hmem := Text.mem_of_mem_trimBy hx
    rw [uncommented_eq] at hmem
    apply (cutComment_isInit true line).subset hmem
  rw [parseLine] at h
  cases ht : Text.trimBy isspace (uncommented line) with
  | nil =>
    rw [ht] at h
    cases h
  | cons c s =>
    rw [ht] at h huncut hdrop hsub
    by_cases hc : c = chr '['
    · rw [hc] at h huncut hsub
      simp only [if_true] at h
      split_ifs at h
      obtain rfl := Option.some.inj h
      apply storedName_of_line hline huncut hsub
    · simp only [hc, if_false] at h
      split_ifs at h with hmem
      obtain rfl := Option.some.inj h
      obtain ⟨a, b, hab, ha⟩ := List.eq_append_cons_of_mem hmem
      have hsplit := Text.splitFirst_append b ha
      rw [← hab, Text.splitFirst_eq, if_pos hmem] at hsplit
      obtain ⟨hkey, hval⟩ := Prod.mk.inj (Option.some.inj hsplit)
      have hhead : a.head? ≠ some (chr '[') := by
        intro hhead
        obtain ⟨t, rfl⟩ := List.head?_eq_some_iff.mp hhead
        apply hc (List.cons.inj hab).1
      rw [hab] at huncut hdrop hsub
      rw [hkey, hval]
      apply storedEntry_of_line hline ha huncut hdrop hhead hsub

/-- A stored name may be cut. -/
theorem StoredName.take {name : Bytes} (h : StoredName name) (n : ℕ) :
  StoredName (name.take n)
  := by
  have hsplit := List.take_append_drop n name
  have hsub : ∀ x ∈ name.take n, x ∈ name := fun x hx => List.take_subset n name hx
  constructor
  · apply Text.dropWhile_of_append (b := name.drop n)
    rw [hsplit]
    apply h.noSpaceBefore
  · have huncut := h.uncut
    rw [← hsplit, uncut_append] at huncut
    apply huncut.1
  · intro hmem
    apply h.noBracket (hsub _ hmem)
  · apply h.text.mono hsub

/-- A section that can be stored. -/
structure StoredSection (o : KvOptions) : Prop where
  /-- Its name. -/
  name : StoredName o.name
  /-- The name fits the buffer. -/
  nameFits : o.name.length ≤ 63
  /-- Its entries. -/
  entries : ∀ e ∈ o.kv, StoredEntry e

/-- Applying items keeps the sections those that can be stored. -/
theorem storedSection_of_mem_foldl {items : List CfgItem} (h : ∀ item ∈ items, StoredItem item) :
  ∀ o ∈ (items.foldl applyItem (fileSection [] benchName)).1, StoredSection o
  := by
  induction items using List.reverseRecOn with
  | nil =>
    intro o ho
    have hbench : o = ⟨benchName, []⟩ := List.mem_singleton.mp ho
    rw [hbench]
    constructor
    · constructor
      · decide
      · rw [Uncut]
        decide
      · decide
      · exact ⟨by decide, by decide⟩
    · decide
    · simp
  | append_singleton items item ih =>
    have hold := ih (fun i hi => h i (List.mem_append_left _ hi))
    have hitem := h item (by simp)
    rw [List.foldl_append, List.foldl_cons, List.foldl_nil]
    cases item with
    | select name =>
      rw [applyItem, fileSection]
      split
      · exact hold
      · intro o ho
        rcases List.mem_append.mp ho with ho | ho
        · apply hold o ho
        · rw [List.mem_singleton.mp ho]
          constructor
          · apply StoredName.take hitem
          · apply length_sectionNew_name
          · simp [sectionNew]
    | entry k v =>
      intro o ho
      obtain ⟨i, hi⟩ := List.mem_iff_getElem?.mp ho
      rw [applyItem, List.getElem?_modify, Option.map_eq_map, Option.map_eq_some_iff] at hi
      obtain ⟨o', ho', rfl⟩ := hi
      have hstored := hold o' (List.mem_of_getElem? ho')
      split
      · constructor
        · apply hstored.name
        · apply hstored.nameFits
        · intro e he
          rcases List.mem_append.mp he with he | he
          · apply hstored.entries e he
          · rw [List.mem_singleton.mp he]
            exact hitem
      · exact hstored

/-- The sections of a config file are those that can be stored. -/
theorem storedSection_of_mem_cfgLoad {text : Bytes} {o : KvOptions} (ho : o ∈ cfgLoad text) :
  StoredSection o
  := by
  rw [cfgLoad_eq] at ho
  apply storedSection_of_mem_foldl _ o ho
  intro item hitem
  obtain ⟨piece, hpiece, hparse⟩ := List.mem_filterMap.mp hitem
  obtain ⟨l, hl, hpl⟩ := Text.mem_readLines hpiece
  have hline : ∃ line, StoredText line ∧ parseLine (cString piece) = parseLine line := by
    rcases hpl with rfl | rfl
    · use cString piece
      exact ⟨⟨fun h => hl ((cString_isInit piece).subset h), zero_notMem_cString piece⟩, rfl⟩
    · by_cases h0 : 0 ∈ l
      · use cString l
        rw [cString_append_of_mem h0]
        exact ⟨⟨fun h => hl ((cString_isInit l).subset h), zero_notMem_cString l⟩, rfl⟩
      · use l
        rw [cString_append h0]
        exact ⟨⟨hl, h0⟩, parseLine_newline l⟩
  obtain ⟨line, hstored, heq⟩ := hline
  rw [heq] at hparse
  apply storedItem_of_parseLine hstored hparse

/-! ## Reading what was written -/

/-- The item of a line with an equals sign after a key. -/
theorem parseLine_split {line a b : Bytes} (hcut : cutComment true line = a ++ chr '=' :: b)
    (ha : chr '=' ∉ a) (hhead : (a.dropWhile isspace).head? ≠ some (chr '[')) :
  parseLine line = some (.entry (Text.trimBy isspace a) (Text.trimBy isspace b))
  := by
  have hne : isspace (chr '=') = false := by decide
  have htrim : Text.trimBy isspace (uncommented line)
      = a.dropWhile isspace ++ chr '=' :: b.rdropWhile isspace := by
    rw [uncommented_eq, hcut, Text.trimBy_append_cons hne]
  have ha' : chr '=' ∉ a.dropWhile isspace := fun h => ha (List.dropWhile_subset _ h)
  have hmem : chr '=' ∈ a.dropWhile isspace ++ chr '=' :: b.rdropWhile isspace := by simp
  have hsplit := Text.splitFirst_append (b.rdropWhile isspace) ha'
  rw [Text.splitFirst_eq, if_pos hmem] at hsplit
  obtain ⟨hkey, hval⟩ := Prod.mk.inj (Option.some.inj hsplit)
  rw [parseLine, htrim]
  cases h : a.dropWhile isspace ++ chr '=' :: b.rdropWhile isspace with
  | nil => simp at h
  | cons c s =>
    rw [h] at hkey hval hmem
    have hc : c ≠ chr '[' := by
      intro hc
      apply hhead
      cases hd : a.dropWhile isspace with
      | nil =>
        rw [hd] at h
        rw [← (List.cons.inj h).1] at hc
        revert hc
        decide
      | cons d t =>
        rw [hd] at h
        rw [(List.cons.inj h).1, hc]
        rfl
    simp only [hc, hmem, if_false, if_true]
    rw [hkey, hval, Text.trimBy_dropWhile, Text.trimBy_rdropWhile]

/-- What is read for a value: the text up to its comment. -/
def valueRead (v : Bytes) : Bytes := Text.trimBy isspace (cutComment true v)

/-- A line with a key, an equals sign and a value gives the key without the spaces around it, and
the value up to its comment. -/
theorem parseLine_pair {key : Bytes} (huncut : Uncut true (key ++ ascii "= ")) (hkey : chr '=' ∉ key)
    (hhead : (key.dropWhile isspace).head? ≠ some (chr '[')) (v : Bytes) :
  parseLine (key ++ ascii "= " ++ v) = some (.entry (Text.trimBy isspace key) (valueRead v))
  := by
  have hcut : cutComment true (key ++ ascii "= " ++ v)
      = key ++ chr '=' :: (chr ' ' :: cutComment true v) := by
    rw [cutComment_append huncut, startAfter_equals, List.append_assoc]
    rfl
  have hspace : ∀ x ∈ [chr ' '], isspace x = true := List.forall_mem_singleton.mpr rfl
  have hval : Text.trimBy isspace (chr ' ' :: cutComment true v) = valueRead v := by
    apply Text.trimBy_append_left hspace
  rw [parseLine_split hcut hkey hhead, hval]

/-- A line written for a stored entry gives the key back, and the value up to its comment. -/
theorem parseLine_written {k v : Bytes} (h : StoredEntry (k, v)) :
  parseLine (k ++ ascii " = " ++ v) = some (.entry k (valueRead v))
  := by
  have hline : k ++ ascii " = " ++ v = (k ++ [chr ' ']) ++ ascii "= " ++ v := by
    simp only [List.append_assoc]
    rfl
  have huncut : Uncut true ((k ++ [chr ' ']) ++ ascii "= ") := by
    rw [List.append_assoc, uncut_append]
    constructor
    · apply h.keyUncut
    · rw [Uncut]
      cases startAfter true k <;> decide
  have hspace : ∀ x ∈ [chr ' '], isspace x = true := List.forall_mem_singleton.mpr rfl
  have hkey : chr '=' ∉ k ++ [chr ' '] := by
    intro hmem
    rcases List.mem_append.mp hmem with hmem | hmem
    · apply h.keyNoEquals hmem
    · revert hmem
      decide
  have hhead : ((k ++ [chr ' ']).dropWhile isspace).head? ≠ some (chr '[') := by
    have htrim := Text.dropWhile_trimBy (p := isspace) k
    have hk : Text.trimBy isspace k = k := h.keyTrimmed
    rw [hk] at htrim
    cases hk : k with
    | nil => decide
    | cons c t =>
      rw [hk, List.dropWhile_cons] at htrim
      split_ifs at htrim with hc
      · have hlen := congrArg List.length htrim
        have hle := List.length_dropWhile_le isspace t
        rw [List.length_cons] at hlen
        omega
      · have hno := h.keyNoBracket
        rw [List.cons_append, List.dropWhile_cons_of_neg hc]
        rw [hk] at hno
        exact hno
  rw [hline, parseLine_pair huncut hkey hhead, Text.trimBy_append_of_all hspace, h.keyTrimmed]

/-- A value that does not begin with a comment sign is read back. -/
theorem valueRead_eq_iff {k v : Bytes} (h : StoredEntry (k, v)) :
  valueRead v = v ↔ ∀ c ∈ v.head?, isCommentSign c = false
  := by
  rw [valueRead]
  cases hv : v with
  | nil => simp [cutComment, Text.trimBy]
  | cons c t =>
    have huncut := h.valUncut
    have htrim := h.valTrimmed
    rw [hv] at huncut htrim
    obtain ⟨-, ht⟩ := uncut_cons.mp huncut
    rw [List.head?_cons]
    constructor
    · intro heq d hd
      obtain rfl := Option.some.inj hd
      by_contra hsign
      rw [Bool.not_eq_false] at hsign
      rw [cutComment, isCommentSign] at *
      simp [hsign, Text.trimBy] at heq
    · intro hsign
      have hc : Uncut true (c :: t) := by
        apply uncut_cons.mpr
        constructor
        · intro hs
          rw [hsign c rfl] at hs
          cases hs
        · apply ht
      rw [Uncut] at hc
      rw [hc]
      exact htrim

/-- A section line gives the name without the spaces around it. -/
theorem parseLine_header {name : Bytes} (h : StoredName name) :
  parseLine (chr '[' :: name ++ [chr ']']) = some (.select (name.rdropWhile isspace))
  := by
  have huncut : Uncut true (chr '[' :: name ++ [chr ']']) := by
    rw [List.cons_append, uncut_cons, uncut_append]
    and_intros
    · decide
    · exact h.uncut
    · rw [Uncut]
      cases startAfter (isspace (chr '[')) name <;> decide
  have htrim : Text.trimBy isspace (uncommented (chr '[' :: name ++ [chr ']']))
      = chr '[' :: (name ++ [chr ']']) := by
    rw [Uncut] at huncut
    have hopen : isspace (chr '[') = false := by decide
    have happ : chr '[' :: name ++ [chr ']'] = [] ++ chr '[' :: (name ++ [chr ']']) := rfl
    rw [uncommented_eq, huncut, happ, Text.trimBy_append_cons hopen]
    have hclose : isspace (chr ']') = false := by decide
    rw [Text.rdropWhile_append_cons hclose]
    rfl
  have hmem : chr ']' ∈ name ++ [chr ']'] := by simp
  have hsplit := Text.splitFirst_append [] h.noBracket
  rw [Text.splitFirst_eq, if_pos hmem] at hsplit
  obtain ⟨hname, -⟩ := Prod.mk.inj (Option.some.inj hsplit)
  rw [parseLine, htrim]
  simp only [if_true, hmem]
  rw [hname, Text.trimBy, h.noSpaceBefore]

end Keybench
