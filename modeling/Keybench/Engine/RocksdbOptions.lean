import Keybench.Config.Load
import Keybench.Lib.Lifetime

/-!
# The options of the RocksDB engine

`rocksdb_backend_open` gives each entry of the `[rocksdb]` section to RocksDB's own option
parser, which makes new options from the ones so far or rejects the entry.  RocksDB is not part of
the program: `RocksdbOptionApi` are the calls on its options.  An entry is printed into a buffer of
512 bytes first, so the parser gets the whole entry only when it fits (`forwardsSection_iff`).
-/

namespace Keybench

variable {O : Type}

/-- The calls on options, with the values that the options objects hold. -/
structure RocksdbOptionApi (O : Type) where
  /-- `rocksdb_options_create`. -/
  create : O
  /-- `rocksdb_options_set_create_if_missing`, with `1`. -/
  setCreateIfMissing : O → O
  /-- `rocksdb_get_options_from_string`: the new options, or the text of an error. -/
  getOptionsFromString : O → Bytes → Except Bytes O

/-- `kv_opt_count`. -/
def kvOptCount (o : Option KvOptions) : ℕ := (o.map (fun o => o.kv.length)).getD 0

/-- `kv_opt_key_at` and `kv_opt_val_at`. -/
def kvOptAt (o : Option KvOptions) (i : ℕ) : Option (Bytes × Bytes) := o.bind (fun o => o.kv[i]?)

/-- The entries of a section. -/
def optEntries (o : Option KvOptions) : List (Bytes × Bytes) := (o.map KvOptions.kv).getD []

/-- What the loop of `rocksdb_backend_open` has done. -/
structure OptionsState (O : Type) where
  /-- What the object in `r->opts` holds. -/
  opts : O
  /-- The object in `r->opts`. -/
  handle : ℕ
  /-- The number of the next object that is created. -/
  next : ℕ
  /-- What was done with the objects. -/
  touches : List (Lifetime.Touch ℕ)
  /-- The texts that were given to the parser. -/
  given : List Bytes
  /-- The lines on `stderr`. -/
  log : List Bytes

/-- `"%s=%s"`. -/
def entryText (e : Bytes × Bytes) : Bytes := e.1 ++ ascii "=" ++ e.2

/-- One turn of the loop of `rocksdb_backend_open`. -/
def applyOption (api : RocksdbOptionApi O) (st : OptionsState O) (e : Bytes × Bytes) :
    OptionsState O :=
  if e.1 = ascii "data_dir" then st
  else
    let spec := snprintfStr 512 (entryText e)
    let nw := st.next
    let touches := st.touches ++ [.acquire nw, .use st.handle, .use nw]
    match api.getOptionsFromString st.opts spec with
    | .error oerr =>
      { st with
        next := nw + 1
        touches := touches ++ [.release nw]
        given := st.given ++ [spec]
        log := st.log ++ [ascii "rocksdb: skipping option '" ++ entryText e ++ ascii "' (" ++ oerr
          ++ ascii ")\n"] }
    | .ok opts =>
      { st with
        opts := opts
        handle := nw
        next := nw + 1
        touches := touches ++ [.release st.handle]
        given := st.given ++ [spec] }

/-- The options before the loop. -/
def createOptions (api : RocksdbOptionApi O) : OptionsState O where
  opts := api.setCreateIfMissing api.create
  handle := 0
  next := 1
  touches := [.acquire 0, .use 0]
  given := []
  log := []

/-- The options that `rocksdb_backend_open` opens the database with. -/
def rocksdbOptions (api : RocksdbOptionApi O) (o : Option KvOptions) : OptionsState O :=
  (List.range (kvOptCount o)).foldl
    (fun st i => match kvOptAt o i with
      | some e => applyOption api st e
      | none => st)
    (createOptions api)

/-! ## What the loop does -/

/-- The loop goes through the entries of the section. -/
theorem rocksdbOptions_eq (api : RocksdbOptionApi O) (o : Option KvOptions) :
  rocksdbOptions api o = (optEntries o).foldl (applyOption api) (createOptions api)
  := by
  cases o with
  | none => rfl
  | some o =>
    have hentries : (List.range o.kv.length).map (kvOptAt (some o)) = o.kv.map some := by
      apply List.ext_getElem
      · simp
      · intro i hi _
        have hlt : i < o.kv.length := by simpa using hi
        simp [kvOptAt, hlt]
    have hfold : ∀ f : OptionsState O → Option (Bytes × Bytes) → OptionsState O,
        (List.range o.kv.length).foldl (fun st i => f st (kvOptAt (some o) i)) (createOptions api)
          = o.kv.foldl (fun st e => f st (some e)) (createOptions api) := by
      intro f
      rw [← List.foldl_map, hentries, List.foldl_map]
    apply hfold (fun st e => match e with
      | some e => applyOption api st e
      | none => st)

/-- The texts of the entries that the engine forwards. -/
def forwardedTexts (kv : List (Bytes × Bytes)) : List Bytes :=
  (kv.filter (fun e => e.1 ≠ ascii "data_dir")).map entryText

/-- The options after a text: the new ones when the parser takes it, the old ones when not. -/
def replaceOrKeep (api : RocksdbOptionApi O) (opts : O) (spec : Bytes) : O :=
  match api.getOptionsFromString opts spec with
  | .error _ => opts
  | .ok opts => opts

/-- One turn gives the parser the entry as far as it fits, and replaces or keeps the options. -/
theorem applyOption_spec (api : RocksdbOptionApi O) (st : OptionsState O) {e : Bytes × Bytes}
    (he : e.1 ≠ ascii "data_dir") :
  (applyOption api st e).given = st.given ++ [snprintfStr 512 (entryText e)] ∧
    (applyOption api st e).opts = replaceOrKeep api st.opts (snprintfStr 512 (entryText e))
  := by
  rw [applyOption, if_neg he, replaceOrKeep]
  dsimp only
  cases api.getOptionsFromString st.opts (snprintfStr 512 (entryText e)) with
  | error oerr => exact ⟨rfl, rfl⟩
  | ok opts => exact ⟨rfl, rfl⟩

/-- The loop folds the parser over the entries as far as they fit. -/
theorem foldl_applyOption (api : RocksdbOptionApi O) (kv : List (Bytes × Bytes))
    (st : OptionsState O) :
  (kv.foldl (applyOption api) st).given
      = st.given ++ (forwardedTexts kv).map (snprintfStr 512) ∧
    (kv.foldl (applyOption api) st).opts
      = ((forwardedTexts kv).map (snprintfStr 512)).foldl (replaceOrKeep api) st.opts
  := by
  induction kv generalizing st with
  | nil => simp [forwardedTexts]
  | cons e kv ih =>
    obtain ⟨hgiven, hopts⟩ := ih (applyOption api st e)
    rw [List.foldl_cons, hgiven, hopts]
    by_cases he : e.1 = ascii "data_dir"
    · have hskip : applyOption api st e = st := by rw [applyOption, if_pos he]
      have htexts : forwardedTexts (e :: kv) = forwardedTexts kv := by
        rw [forwardedTexts, List.filter_cons_of_neg (by simpa using he), forwardedTexts]
      rw [hskip, htexts]
      exact ⟨rfl, rfl⟩
    · obtain ⟨hgiven', hopts'⟩ := applyOption_spec api st he
      have htexts : forwardedTexts (e :: kv) = entryText e :: forwardedTexts kv := by
        rw [forwardedTexts, List.filter_cons_of_pos (by simpa using he), List.map_cons,
          forwardedTexts]
      rw [hgiven', hopts', htexts, List.map_cons, List.foldl_cons, List.append_assoc,
        List.singleton_append]
      exact ⟨rfl, rfl⟩

/-! ## The options objects -/

/-- One options object is live, that in `r->opts`, and no later one was created yet. -/
structure OwnsOptions (st : OptionsState O) : Prop where
  /-- The object in `r->opts` was created. -/
  old : st.handle < st.next
  /-- It is the only one that is live. -/
  live : Lifetime.run [] st.touches = some [st.handle]

/-- One turn destroys the object that is not kept. -/
theorem OwnsOptions.applyOption (api : RocksdbOptionApi O) {st : OptionsState O}
    (h : OwnsOptions st) (e : Bytes × Bytes) :
  OwnsOptions (applyOption api st e)
  := by
  have hne : st.next ≠ st.handle := (Nat.ne_of_lt h.old).symm
  rw [Keybench.applyOption]
  split_ifs with he
  · apply h
  · dsimp only
    cases api.getOptionsFromString st.opts (snprintfStr 512 (entryText e)) with
    | error oerr =>
      constructor
      · apply Nat.lt_succ_of_lt h.old
      · dsimp only
        rw [List.append_assoc, Lifetime.run_append_of h.live]
        simp
    | ok opts =>
      constructor
      · apply Nat.lt_succ_self
      · dsimp only
        rw [List.append_assoc, Lifetime.run_append_of h.live]
        simp [hne]

/-- The options that the database is opened with are live, and all others were destroyed. -/
theorem ownsOptions_rocksdbOptions (api : RocksdbOptionApi O) (o : Option KvOptions) :
  OwnsOptions (rocksdbOptions api o)
  := by
  rw [rocksdbOptions_eq]
  apply List.foldlRecOn (optEntries o) (Keybench.applyOption api) (motive := OwnsOptions)
  · constructor
    · apply Nat.zero_lt_one
    · simp [createOptions]
  · intro st hst e _
    apply hst.applyOption

/-! ## Forwarding -/

/-- The options are those that the parser makes of the entries of the section, and each entry
reaches the parser verbatim and whole. -/
def ForwardsSection (api : RocksdbOptionApi O) (o : Option KvOptions) : Prop :=
  (rocksdbOptions api o).given = forwardedTexts (optEntries o) ∧
    (rocksdbOptions api o).opts
      = (forwardedTexts (optEntries o)).foldl (replaceOrKeep api)
        (api.setCreateIfMissing api.create)

/-- The entries fit the buffer they are printed into. -/
def EntriesFit (o : Option KvOptions) : Prop :=
  ∀ e ∈ optEntries o, e.1 ≠ ascii "data_dir" → e.1.length + 1 + e.2.length ≤ 511

/-- The length of an entry. -/
theorem length_entryText (e : Bytes × Bytes) :
  (entryText e).length = e.1.length + 1 + e.2.length
  := by
  rw [entryText, List.length_append, List.length_append]
  rfl

/-- The entries fit exactly when printing them into the buffer keeps them. -/
theorem entriesFit_iff (o : Option KvOptions) :
  EntriesFit o
    ↔ (forwardedTexts (optEntries o)).map (snprintfStr 512) = forwardedTexts (optEntries o)
  := by
  have hfit : ∀ s : Bytes, snprintfStr 512 s = s ↔ s.length ≤ 511 := by
    intro s
    apply List.take_eq_self_iff
  conv_rhs => rhs; rw [← List.map_id (forwardedTexts (optEntries o))]
  rw [List.map_inj_left]
  constructor
  · intro h s hs
    obtain ⟨e, he, rfl⟩ := List.mem_map.mp hs
    obtain ⟨hmem, hkey⟩ := List.mem_filter.mp he
    rw [id_eq, hfit, length_entryText]
    apply h e hmem (by simpa using hkey)
  · intro h e hmem hkey
    have he : e ∈ (optEntries o).filter (fun e => e.1 ≠ ascii "data_dir") :=
      List.mem_filter.mpr ⟨hmem, by simpa using hkey⟩
    have htext := (hfit _).mp (h _ (List.mem_map_of_mem he))
    rw [length_entryText] at htext
    apply htext

/-- The section is forwarded exactly when its entries fit the buffer. -/
theorem forwardsSection_iff (api : RocksdbOptionApi O) (o : Option KvOptions) :
  ForwardsSection api o ↔ EntriesFit o
  := by
  obtain ⟨hgiven, hopts⟩ := foldl_applyOption api (optEntries o) (createOptions api)
  rw [← rocksdbOptions_eq] at hgiven hopts
  rw [ForwardsSection, hgiven, hopts, entriesFit_iff]
  constructor
  · intro h
    apply h.1
  · intro h
    rw [h]
    exact ⟨rfl, rfl⟩

/-- An options parser that takes every text, the options being the texts it took. -/
def takesAll : RocksdbOptionApi (List Bytes) where
  create := []
  setCreateIfMissing := List.cons (ascii "create_if_missing=1")
  getOptionsFromString opts spec := .ok (opts ++ [spec])

/-- The last byte of a path of 504 bytes is lost. -/
theorem forwardsSection_not :
  ¬ ForwardsSection takesAll (some ⟨ascii "rocksdb",
    [(ascii "wal_dir", chr '/' :: List.replicate 503 (chr 'w'))]⟩)
  := by
  rw [ForwardsSection]
  intro h
  revert h
  decide +kernel

end Keybench
