import Keybench.Kv.Threads
import Keybench.Workload.CartItems
import Keybench.Workload.CartRange
import Keybench.Workload.IndexScan

/-!
# The programs of the workers

A worker calls `run` of its workload again and again, and stops at an error.  `Workload.run` is
`run` of each of the workloads: it draws its numbers first, so that a call of it is a program
(`LuaProg`) and the next state of the generator and of the buffers that batch keeps.
`workerProg run n` is what a worker does in `n` calls.

`Workload.Call` says what a call can do, whatever is drawn.  Every worker is portable
(`worker_portable`).
-/

namespace Keybench

/-! ## Programs one after the other -/

/-- A program and, when it returns, another one after it. -/
def LuaProg.andThen : LuaProg → LuaProg → LuaProg
  | .ret _, prog => prog
  | .raise, _ => .raise
  | .call verb args next, prog => .call verb args fun a => (next a).andThen prog
  | .scan lo hi callable fn limit next, prog =>
    .scan lo hi callable fn limit fun a => (next a).andThen prog

/-- The loop of `worker_main`: `n` calls of `run`, which answers `none` when it raises an error
before its first verb. -/
def workerProg {σ : Type} (run : σ → Option (LuaProg × σ)) : ℕ → σ → LuaProg
  | 0, _ => .ret false
  | n + 1, st =>
    match run st with
    | none => .raise
    | some (prog, st) => prog.andThen (workerProg run n st)

/-- What holds of the calls of `run`, in states of a kind that they keep, and of programs one after
the other, holds of a worker. -/
theorem workerProg_induct {σ : Type} {Q : LuaProg → Prop} {I : σ → Prop}
    {run : σ → Option (LuaProg × σ)} (hret : Q (.ret false)) (hraise : Q .raise)
    (hthen : ∀ prog prog', Q prog → Q prog' → Q (prog.andThen prog'))
    (hrun : ∀ st prog st', I st → run st = some (prog, st') → Q prog ∧ I st') (n : ℕ) {st : σ}
    (hst : I st) :
  Q (workerProg run n st)
  := by
  induction n generalizing st with
  | zero => apply hret
  | succ n ih =>
    rw [workerProg]
    split
    · apply hraise
    · rename_i hcall
      obtain ⟨hprog, hst'⟩ := hrun _ _ _ hst hcall
      apply hthen _ _ hprog
      apply ih hst'

/-- Portable programs one after the other. -/
theorem LuaProg.Portable.andThen {prog prog' : LuaProg} (h : prog.Portable)
    (h' : prog'.Portable) :
  (prog.andThen prog').Portable
  := by
  induction h with
  | ret truthy => apply h'
  | raise => exact .raise
  | call hnext hdel ih =>
    apply LuaProg.Portable.call ih
    intro hverb b b'
    exact congrArg (LuaProg.andThen · prog') (hdel hverb b b')
  | scan hreads hfn hnext hlook ihfn ihnext =>
    apply LuaProg.Portable.scan hreads hfn ihnext
    apply hlook.imp_right
    intro hlook n n'
    exact congrArg (LuaProg.andThen · prog') (hlook n n')

/-- Programs that put pairs of a kind only, one after the other. -/
theorem LuaProg.PutsOnly.andThen {P : Bytes → Bytes → Prop} {prog prog' : LuaProg}
    (h : prog.PutsOnly P) (h' : prog'.PutsOnly P) :
  (prog.andThen prog').PutsOnly P
  := by
  induction h with
  | ret truthy => apply h'
  | raise => exact .raise
  | call hputs hnext ih => exact .call hputs ih
  | scan hfn hnext ihfn ihnext => exact .scan hfn ihnext

/-! ## The workloads -/

/-- What the Lua code of a worker keeps between calls of `run`: the generator, and the buffers of
batch. -/
structure WorkloadState (G : Type) where
  /-- The generator. -/
  gen : G
  /-- `mget_buf`. -/
  mgetBuf : List Bytes
  /-- `mput_buf`. -/
  mputBuf : List (Bytes × Bytes)

/-- `buf[j + 1] = x`. -/
def luaSet {α : Type} (buf : List α) (j : ℕ) (x : α) : List α :=
  if j < buf.length then buf.set j x else buf ++ [x]

section Run

variable {G : Type} (rng : LuaRandom G) (hot : ℤ → G → ℤ × G)

/-- The loops of `run` of batch over a buffer: the next `n` entries after the first `j` are set,
each made from the key of an index that is drawn. -/
def fillBuf {α : Type} (make : Bytes → α) (items : ℤ) :
    ℕ → ℕ → List α × G → Option (List α × G)
  | _, 0, st => some st
  | j, n + 1, (buf, g) => do
    let (i, g) ← rnd rng items g
    let k ← key i
    fillBuf make items (j + 1) n (luaSet buf j (make k), g)

/-- `run` of batch. -/
def batchRun (items batch : ℤ) (st : WorkloadState G) : Option (LuaProg × WorkloadState G) :=
  if batch < 1 then none
  else if items < 1 then none
  else
    let b := max 1 batch
    let (roll, gen) := rng.random st.gen 1 100
    if roll ≤ 60 then do
      let (mgetBuf, gen) ← fillBuf rng id items 0 b.toNat (st.mgetBuf, gen)
      some (callOnce .mget [luaKeys mgetBuf], { st with gen, mgetBuf })
    else do
      let (mputBuf, gen) ← fillBuf rng (fun k => (k, indexValue)) items 0 b.toNat (st.mputBuf, gen)
      some (callOnce .mput [luaPairList mputBuf], { st with gen, mputBuf })

/-- `SCAN_WINDOW` of scan. -/
def scanRunWindow : ℤ := 1000

/-- A call of `kv_scan` with `scan_add`, which adds the number of each value up and returns
`false`. -/
def scanOnce (lo hi : Bytes) : LuaProg :=
  .scan (luaString lo) (luaString hi) true (fun _ _ => .ret false) .nil
    fun answer => if answer = .raised then .raise else .ret false

/-- `run` of scan.  The end of a window is at most `items` or `SCAN_WINDOW`, and does not wrap. -/
def scanRun (items : ℤ) (g : G) : Option (LuaProg × G) :=
  if items < 1 then none
  else do
    let (start, g) := rng.random g 0 (max 0 (items - scanRunWindow))
    let lo ← key start
    let hi ← key (start + scanRunWindow)
    some (scanOnce lo hi, g)

/-- A workload, with the parameters that its `run` reads beside `ctx.items`. -/
inductive Workload where
  | mixed
  | scan
  /-- batch with `ctx.batch`. -/
  | batch (b : ℤ)
  /-- valsize with `ctx.valuebytes`. -/
  | valsize (valuebytes : ℤ)
  /-- cart with `ctx.users`. -/
  | cart (users : ℤ)

/-- The parameters of a workload are in the ranges that `load` and `run` ask for. -/
def Workload.Accepted (items : ℤ) : Workload → Prop
  | .mixed | .scan => 1 ≤ items
  | .batch b => 1 ≤ items ∧ 1 ≤ b
  | .valsize valuebytes => 1 ≤ items ∧ 1 ≤ valuebytes
  | .cart users => 1 ≤ items ∧ 1 ≤ users

/-- The windows of mixed and of valsize end at an index that does not wrap. -/
def Workload.WindowsFit (items : ℤ) : Workload → Prop
  | .mixed | .valsize _ => items + scanWindow ≤ 2 ^ 63
  | .scan | .batch _ | .cart _ => True

/-- `run`: what a call of it does, or `none` when it raises an error before its first verb. -/
def Workload.run (items : ℤ) (st : WorkloadState G) :
    Workload → Option (LuaProg × WorkloadState G)
  | .mixed => do
    let ((verb, args), gen) ← mixedRun rng items st.gen
    some (callOnce verb args, { st with gen })
  | .scan => do
    let (prog, gen) ← scanRun rng items st.gen
    some (prog, { st with gen })
  | .batch b => batchRun rng items b st
  | .valsize valuebytes => do
    let ((verb, args), gen) ← valsizeRun rng valuebytes items st.gen
    some (callOnce verb args, { st with gen })
  | .cart users => do
    let (op, gen) ← cartRun rng hot users items st.gen
    some (op.prog, { st with gen })

/-- What a worker does in `n` calls of `run`. -/
def Workload.worker (W : Workload) (items : ℤ) (n : ℕ) (g : G) : LuaProg :=
  workerProg (fun st => W.run rng hot items st) n ⟨g, [], []⟩

end Run

/-! ## Calls -/

section Calls

variable {G : Type} {rng : LuaRandom G} {hot : ℤ → G → ℤ × G} {items : ℤ}

/-- The keys of indices that are drawn. -/
theorem key_of_rnd {n i : ℤ} {g g' : G} (h : rnd rng n g = some (i, g')) :
  ∃ j : ℕ, i = j ∧ (j : ℤ) < n ∧ key i = some (indexKey j)
  := by
  obtain ⟨hnonneg, hlt⟩ := rnd_spec rng h
  obtain ⟨j, rfl⟩ := Int.eq_ofNat_of_zero_le hnonneg
  exact ⟨j, rfl, hlt, key_of_nonneg hnonneg⟩

/-- The calls of `run` of mixed and of valsize. -/
inductive IndexCall (value : Option Bytes) (items : ℤ) : KvVerb → List LuaArg → Prop
  | get (i : ℕ) : (i : ℤ) < items → IndexCall value items .get [luaString (indexKey i)]
  | put (i : ℕ) (v : Bytes) : (i : ℤ) < items → value = some v →
    IndexCall value items .put [luaString (indexKey i), luaString v]
  | del (i : ℕ) : (i : ℤ) < items → IndexCall value items .del [luaString (indexKey i)]
  | range (start : ℕ) {args : List LuaArg} : (start : ℤ) < items → windowArgs start = some args →
    IndexCall value items .range args

/-- A call of `run`. -/
theorem indexRun_call {value : Option Bytes} {g g' : G} {verb : KvVerb} {args : List LuaArg}
    (h : indexRun rng value items g = some ((verb, args), g')) :
  IndexCall value items verb args
  := by
  rw [indexRun] at h
  dsimp only at h
  split_ifs at h
  · obtain ⟨⟨i, g₁⟩, hdraw, h⟩ := Option.bind_eq_some_iff.mp h
    obtain ⟨j, rfl, hlt, hkey⟩ := key_of_rnd hdraw
    simp only [hkey, Option.bind_eq_bind, Option.bind_some] at h
    cases h
    exact .get j hlt
  · obtain ⟨⟨i, g₁⟩, hdraw, h⟩ := Option.bind_eq_some_iff.mp h
    obtain ⟨j, rfl, hlt, hkey⟩ := key_of_rnd hdraw
    simp only [hkey, Option.bind_eq_bind, Option.bind_some] at h
    obtain ⟨v, hv, h⟩ := Option.bind_eq_some_iff.mp h
    cases h
    exact .put j v hlt hv
  · obtain ⟨⟨i, g₁⟩, hdraw, h⟩ := Option.bind_eq_some_iff.mp h
    obtain ⟨j, rfl, hlt, hkey⟩ := key_of_rnd hdraw
    simp only [hkey, Option.bind_eq_bind, Option.bind_some] at h
    cases h
    exact .del j hlt
  · obtain ⟨⟨i, g₁⟩, hdraw, h⟩ := Option.bind_eq_some_iff.mp h
    obtain ⟨j, rfl, hlt, -⟩ := key_of_rnd hdraw
    obtain ⟨args', hargs, h⟩ := Option.bind_eq_some_iff.mp h
    cases h
    exact .range j hlt hargs

/-- The user of an operation of cart. -/
def CartOp.user : CartOp → ℤ
  | .add uid _ | .view uid | .get uid _ | .update uid _ | .remove uid _ | .checkout uid => uid

/-- The user of a call of `run` of cart. -/
theorem cartRun_user {users : ℤ} {g g' : G} {op : CartOp}
    (h : cartRun rng hot users items g = some (op, g')) :
  0 ≤ op.user ∧ op.user < users
  := by
  obtain ⟨⟨uid, g₁⟩, huser, h⟩ := Option.bind_eq_some_iff.mp h
  have huid := hotUser_spec huser
  dsimp only at h
  split_ifs at h
  all_goals
    first
    | obtain ⟨⟨iid, g₂⟩, -, h⟩ := Option.bind_eq_some_iff.mp h
      cases h
      apply huid
    | cases h
      apply huid

/-- A call of `run` of batch hands a buffer over. -/
theorem batchRun_eq {batch : ℤ} {st st' : WorkloadState G} {prog : LuaProg}
    (h : batchRun rng items batch st = some (prog, st')) :
  1 ≤ batch ∧ 1 ≤ items ∧
    ((∃ gen, fillBuf rng id items 0 batch.toNat (st.mgetBuf, gen)
        = some (st'.mgetBuf, st'.gen) ∧ st'.mputBuf = st.mputBuf ∧
        prog = callOnce .mget [luaKeys st'.mgetBuf]) ∨
      ∃ gen, fillBuf rng (fun k => (k, indexValue)) items 0 batch.toNat (st.mputBuf, gen)
        = some (st'.mputBuf, st'.gen) ∧ st'.mgetBuf = st.mgetBuf ∧
        prog = callOnce .mput [luaPairList st'.mputBuf])
  := by
  rw [batchRun] at h
  split_ifs at h with hbatch hitems
  rw [max_eq_right (not_lt.mp hbatch)] at h
  use not_lt.mp hbatch, not_lt.mp hitems
  dsimp only at h
  split_ifs at h
  · obtain ⟨⟨buf, gen⟩, hfill, h⟩ := Option.bind_eq_some_iff.mp h
    obtain ⟨rfl, rfl⟩ := Prod.mk.inj (Option.some.inj h)
    exact .inl ⟨_, hfill, rfl, rfl⟩
  · obtain ⟨⟨buf, gen⟩, hfill, h⟩ := Option.bind_eq_some_iff.mp h
    obtain ⟨rfl, rfl⟩ := Prod.mk.inj (Option.some.inj h)
    exact .inr ⟨_, hfill, rfl, rfl⟩

/-- A buffer whose first `n` entries after the first `j` have been set. -/
theorem fillBuf_spec {α : Type} {make : Bytes → α} {n : ℕ} (xs : List α) {ys : List α} {g g' : G}
    {buf : List α} (h : fillBuf rng make items xs.length n (xs ++ ys, g) = some (buf, g')) :
  ∃ js : List ℕ, js.length = n ∧ (∀ j ∈ js, (j : ℤ) < items) ∧
    buf = xs ++ js.map (fun j : ℕ => make (indexKey j)) ++ ys.drop n
  := by
  induction n generalizing xs ys g with
  | zero =>
    cases h
    exact ⟨[], rfl, by simp, by simp⟩
  | succ n ih =>
    obtain ⟨⟨i, g₁⟩, hdraw, h⟩ := Option.bind_eq_some_iff.mp h
    obtain ⟨j, rfl, hlt, hkey⟩ := key_of_rnd hdraw
    simp only [hkey, Option.bind_eq_bind, Option.bind_some] at h
    have hset : luaSet (xs ++ ys) xs.length (make (indexKey j))
        = (xs ++ [make (indexKey j)]) ++ ys.tail := by
      cases ys with
      | nil => simp [luaSet]
      | cons y ys => simp [luaSet]
    have hlen : xs.length + 1 = (xs ++ [make (indexKey j)]).length := by simp
    rw [hset, hlen] at h
    obtain ⟨js, hjs, hitems, rfl⟩ := ih _ h
    use j :: js
    and_intros
    · rw [List.length_cons, hjs]
    · intro i hi
      rcases List.mem_cons.mp hi with rfl | hi
      · apply hlt
      · apply hitems i hi
    · simp [List.append_assoc]

/-- A call of `run` of batch fills a buffer that is not longer than a batch, and hands it over. -/
theorem batchRun_spec {b : ℤ} {st st' : WorkloadState G} {prog : LuaProg}
    (hget : st.mgetBuf.length ≤ b.toNat) (hput : st.mputBuf.length ≤ b.toNat)
    (h : batchRun rng items b st = some (prog, st')) :
  st'.mgetBuf.length ≤ b.toNat ∧ st'.mputBuf.length ≤ b.toNat ∧
    ∃ js : List ℕ, js.length = b.toNat ∧ (∀ j ∈ js, (j : ℤ) < items) ∧
      (prog = callOnce .mget [luaKeys (js.map fun j : ℕ => indexKey j)] ∨
        prog = callOnce .mput [luaPairList (js.map fun j : ℕ => (indexKey j, indexValue))])
  := by
  obtain ⟨-, -, ⟨gen, hfill, hrest, rfl⟩ | ⟨gen, hfill, hrest, rfl⟩⟩ := batchRun_eq h
  · obtain ⟨js, hjs, hitems, hbuf⟩ := fillBuf_spec [] hfill
    rw [List.drop_of_length_le hget, List.append_nil, List.nil_append] at hbuf
    rw [hrest, hbuf, List.length_map, hjs]
    exact ⟨le_rfl, hput, js, hjs, hitems, .inl rfl⟩
  · obtain ⟨js, hjs, hitems, hbuf⟩ := fillBuf_spec [] hfill
    rw [List.drop_of_length_le hput, List.append_nil, List.nil_append] at hbuf
    rw [hrest, hbuf, List.length_map, hjs]
    exact ⟨hget, le_rfl, js, hjs, hitems, .inr rfl⟩

/-- A call of `run` of scan scans a window. -/
theorem scanRun_spec {g g' : G} {prog : LuaProg} (h : scanRun rng items g = some (prog, g')) :
  1 ≤ items ∧ ∃ start : ℕ, (start : ℤ) ≤ max 0 (items - scanRunWindow) ∧
    prog = scanOnce (indexKey start) (indexKey (start + scanRunWindow))
  := by
  rw [scanRun] at h
  split_ifs at h with hitems
  have hmem := rng.random_mem g 0 (max 0 (items - scanRunWindow)) (le_max_left _ _)
  obtain ⟨start, hstart⟩ := Int.eq_ofNat_of_zero_le hmem.1
  have hend : (0 : ℤ) ≤ start + scanRunWindow := by
    rw [scanRunWindow]
    omega
  rw [hstart] at hmem
  simp only [hstart, key_of_nonneg (Int.natCast_nonneg start), key_of_nonneg hend,
    Option.bind_eq_bind, Option.bind_some] at h
  obtain ⟨rfl, -⟩ := Prod.mk.inj (Option.some.inj h)
  exact ⟨not_lt.mp hitems, start, hmem.2, rfl⟩

/-- What a call of `run` does that raises no error before its first verb. -/
inductive Workload.Call (items : ℤ) : Workload → LuaProg → Prop
  | mixed {verb : KvVerb} {args : List LuaArg} :
    IndexCall (some indexValue) items verb args → Call items .mixed (callOnce verb args)
  | scan (start : ℕ) : 1 ≤ items → (start : ℤ) ≤ max 0 (items - scanRunWindow) →
    Call items .scan (scanOnce (indexKey start) (indexKey (start + scanRunWindow)))
  | mget {b : ℤ} (js : List ℕ) : js.length = b.toNat → (∀ j ∈ js, (j : ℤ) < items) →
    Call items (.batch b) (callOnce .mget [luaKeys (js.map fun j : ℕ => indexKey j)])
  | mput {b : ℤ} (js : List ℕ) : js.length = b.toNat → (∀ j ∈ js, (j : ℤ) < items) →
    Call items (.batch b)
      (callOnce .mput [luaPairList (js.map fun j : ℕ => (indexKey j, indexValue))])
  | valsize {valuebytes : ℤ} {verb : KvVerb} {args : List LuaArg} :
    IndexCall (valueFor valuebytes) items verb args →
      Call items (.valsize valuebytes) (callOnce verb args)
  | cart {users : ℤ} (op : CartOp) : 0 ≤ op.user ∧ op.user < users →
    (∀ u i, op.line = some (u, i) → (0 ≤ u ∧ u < users) ∧
      pickBase u items ≤ i ∧ i < pickBase u items + cartW) →
    Call items (.cart users) op.prog

/-- The buffers of batch are not longer than a batch. -/
def Workload.Bounded (st : WorkloadState G) : Workload → Prop
  | .batch b => st.mgetBuf.length ≤ b.toNat ∧ st.mputBuf.length ≤ b.toNat
  | _ => True

/-- A call of `run`. -/
theorem Workload.run_call {W : Workload} {st st' : WorkloadState G} {prog : LuaProg}
    (hst : W.Bounded st) (h : W.run rng hot items st = some (prog, st')) :
  W.Call items prog ∧ W.Bounded st'
  := by
  cases W with
  | mixed =>
    obtain ⟨⟨⟨verb, args⟩, gen⟩, hcall, h⟩ := Option.bind_eq_some_iff.mp h
    obtain ⟨rfl, -⟩ := Prod.mk.inj (Option.some.inj h)
    exact ⟨.mixed (indexRun_call hcall), trivial⟩
  | scan =>
    obtain ⟨⟨prog', gen⟩, hrun, h⟩ := Option.bind_eq_some_iff.mp h
    obtain ⟨rfl, -⟩ := Prod.mk.inj (Option.some.inj h)
    obtain ⟨hitems, start, hstart, rfl⟩ := scanRun_spec hrun
    exact ⟨.scan start hitems hstart, trivial⟩
  | batch b =>
    obtain ⟨hget, hput, js, hjs, hitems, hprog⟩ := batchRun_spec hst.1 hst.2 h
    rcases hprog with rfl | rfl
    · exact ⟨.mget js hjs hitems, hget, hput⟩
    · exact ⟨.mput js hjs hitems, hget, hput⟩
  | valsize valuebytes =>
    obtain ⟨⟨⟨verb, args⟩, gen⟩, hcall, h⟩ := Option.bind_eq_some_iff.mp h
    obtain ⟨rfl, -⟩ := Prod.mk.inj (Option.some.inj h)
    exact ⟨.valsize (indexRun_call hcall), trivial⟩
  | cart users =>
    obtain ⟨⟨op, gen⟩, hop, h⟩ := Option.bind_eq_some_iff.mp h
    obtain ⟨rfl, -⟩ := Prod.mk.inj (Option.some.inj h)
    exact ⟨.cart op (cartRun_user hop) fun u i hline => cartRun_line hop hline, trivial⟩

/-- What holds of each call, and of programs one after the other, holds of a worker. -/
theorem worker_induct {W : Workload} {Q : LuaProg → Prop} (hret : Q (.ret false))
    (hraise : Q .raise) (hthen : ∀ prog prog', Q prog → Q prog' → Q (prog.andThen prog'))
    (hcall : ∀ prog, W.Call items prog → Q prog) (n : ℕ) (g : G) :
  Q (W.worker rng hot items n g)
  := by
  apply workerProg_induct (I := fun st => W.Bounded st) hret hraise hthen
  · intro st prog st' hst hrun
    obtain ⟨hprog, hst'⟩ := W.run_call hst hrun
    exact ⟨hcall prog hprog, hst'⟩
  · cases W with
    | batch b => exact ⟨Nat.zero_le _, Nat.zero_le _⟩
    | _ => trivial

end Calls

/-! ## Portability -/

/-- A call whose answer is discarded is portable. -/
theorem callOnce_portable (verb : KvVerb) (args : List LuaArg) :
  (callOnce verb args).Portable
  := by
  apply LuaProg.Portable.call
  · intro a
    split_ifs
    · exact .raise
    · exact .ret false
  · intro _ b b'
    simp

/-- Deleting keys is portable. -/
theorem delAll_portable (ks : List Bytes) :
  (delAll ks).Portable
  := by
  induction ks with
  | nil => exact .ret false
  | cons k ks ih =>
    apply LuaProg.Portable.call
    · intro a
      split_ifs
      · exact .raise
      · apply ih
    · intro _ b b'
      simp

/-- A program that reads the range of a user is portable when it goes on so. -/
theorem rangeOfUser_portable (uid : ℤ) {next : List (Bytes × Bytes) → LuaProg}
    (h : ∀ rows, (next rows).Portable) :
  (rangeOfUser uid next).Portable
  := by
  rw [rangeOfUser]
  split
  · exact .raise
  · apply LuaProg.Portable.call
    · intro a
      split
      · apply h
      · exact .raise
    · rintro ⟨⟩

/-- The operations of cart are portable. -/
theorem CartOp.prog_portable (op : CartOp) :
  op.prog.Portable
  := by
  cases op with
  | view uid => exact rangeOfUser_portable uid fun _ => .ret false
  | checkout uid => exact rangeOfUser_portable uid fun _ => delAll_portable _
  | _ => apply callOnce_portable

/-- A call of `run` is portable. -/
theorem Workload.Call.portable {items : ℤ} {W : Workload} {prog : LuaProg}
    (h : W.Call items prog) :
  prog.Portable
  := by
  cases h with
  | cart op => apply op.prog_portable
  | scan start =>
    apply LuaProg.Portable.scan (fun _ _ => .ret false) (fun _ _ => .ret false)
    · intro a
      split_ifs
      · exact .raise
      · exact .ret false
    · exact .inl fun _ _ => .ret
  | _ => apply callOnce_portable

/-- What a worker does is portable. -/
theorem worker_portable {G : Type} {rng : LuaRandom G} {hot : ℤ → G → ℤ × G} {items : ℤ}
    (W : Workload) (n : ℕ) (g : G) :
  (W.worker rng hot items n g).Portable
  := by
  apply worker_induct (.ret false) .raise (fun _ _ h h' => h.andThen h')
  exact fun _ hcall => hcall.portable

end Keybench
