import Keybench.Bytes
import Keybench.Lib.Scan

/-!
# What the verbs see of Lua

`LuaArg` is an argument of a verb as far as the verbs look at it, and `luaLChecklstring`,
`luaLOptinteger` and the functions that read a list are the checks they make on it; a failed
check is `none` and raises an error in Lua.  `LuaAnswer` is what a verb pushes.  `scanCb`
turns a Lua callback into a row callback, and `scanAnswer` ends `kv.scan`.
-/

namespace Keybench

/-- An argument of a verb. -/
inductive LuaArg where
  /-- An absent argument or `nil`. -/
  | nil
  /-- A string or a number: its string form, and its integer value when it has one. -/
  | text (s : Bytes) (int : Option ℤ)
  /-- A table: its length, its elements by index and its fields by name. -/
  | table (len : ℤ) (geti : ℕ → LuaArg) (getfield : Bytes → LuaArg)
  /-- Any other value. -/
  | other

/-- A string as an argument. -/
def luaString (s : Bytes) : LuaArg := .text s none

/-- The argument at a position, counted from one. -/
def luaArg (args : List LuaArg) (i : ℕ) : LuaArg := args.getD (i - 1) .nil

/-- `luaL_checklstring`. -/
def luaLChecklstring : LuaArg → Option Bytes
  | .text s _ => some s
  | _ => none

/-- `luaL_optinteger` with the default `dflt`. -/
def luaLOptinteger (dflt : ℤ) : LuaArg → Option ℤ
  | .nil => some dflt
  | .text _ int => int
  | _ => none

/-- The conversion of a 64-bit integer to `int`. -/
def toCInt (i : ℤ) : ℤ := i.bmod (2 ^ 32)

/-- `int n = (int)luaL_len(L, 1); if (n < 0) n = 0;` on a list of the given length. -/
def listCount (len : ℤ) : ℕ := (toCInt len).toNat

/-- Read the next `n` strings of a list after the first `i` elements. -/
def luaStrings (geti : ℕ → LuaArg) (i : ℕ) : ℕ → Option (List Bytes)
  | 0 => some []
  | n + 1 => do
    let s ← luaLChecklstring (geti (i + 1))
    let rest ← luaStrings geti (i + 1) n
    some (s :: rest)

/-- Read the `key` and `val` fields of the next `n` tables of a list after the first `i`
elements. -/
def luaPairs (geti : ℕ → LuaArg) (i : ℕ) : ℕ → Option (List (Bytes × Bytes))
  | 0 => some []
  | n + 1 => do
    match geti (i + 1) with
    | .table _ _ getfield =>
      let k ← luaLChecklstring (getfield (ascii "key"))
      let v ← luaLChecklstring (getfield (ascii "val"))
      let rest ← luaPairs geti (i + 1) n
      some ((k, v) :: rest)
    | _ => none

theorem length_luaStrings {geti : ℕ → LuaArg} :
  ∀ {n i : ℕ} {ks : List Bytes}, luaStrings geti i n = some ks → ks.length = n
  | 0, _, _, h => by
    obtain rfl := Option.some.inj h
    rfl
  | n + 1, i, ks, h => by
    rw [luaStrings] at h
    obtain ⟨s, -, h⟩ := Option.bind_eq_some_iff.mp h
    obtain ⟨rest, hrest, h⟩ := Option.bind_eq_some_iff.mp h
    obtain rfl := Option.some.inj h
    rw [List.length_cons, length_luaStrings hrest]

theorem length_luaPairs {geti : ℕ → LuaArg} :
  ∀ {n i : ℕ} {kvs : List (Bytes × Bytes)}, luaPairs geti i n = some kvs → kvs.length = n
  | 0, _, _, h => by
    obtain rfl := Option.some.inj h
    rfl
  | n + 1, i, kvs, h => by
    rw [luaPairs] at h
    split at h
    · obtain ⟨k, -, h⟩ := Option.bind_eq_some_iff.mp h
      obtain ⟨v, -, h⟩ := Option.bind_eq_some_iff.mp h
      obtain ⟨rest, hrest, h⟩ := Option.bind_eq_some_iff.mp h
      obtain rfl := Option.some.inj h
      rw [List.length_cons, length_luaPairs hrest]
    · cases h

/-- The length of a list whose length fits an `int` is counted exactly. -/
theorem listCount_of_fits {len : ℤ} (hlo : -2147483648 ≤ len) (hhi : len < 2147483648) :
  listCount len = len.toNat
  := by
  rw [listCount, toCInt, Int.bmod_eq_of_le] <;> omega

/-- What a verb pushes. -/
inductive LuaAnswer where
  /-- No value. -/
  | nothing
  /-- A string or `nil`. -/
  | value (v : Option Bytes)
  /-- A boolean. -/
  | boolean (b : Bool)
  /-- An integer. -/
  | integer (n : ℤ)
  /-- A list of strings and `nil`s. -/
  | values (vs : List (Option Bytes))
  /-- A list of rows. -/
  | rows (rs : List (Bytes × Bytes))
  /-- An error was raised. -/
  | raised
deriving DecidableEq

/-- How Lua code ends: it returns a value, of which only the truth matters, or raises an
error. -/
inductive LuaEnd where
  | returned (truthy : Bool)
  | raised
deriving DecidableEq

variable {σ : Type}

/-- `scan_cb`: the row callback of a Lua callback, with the error flag of the scan. -/
def scanCb (fn : σ → Bytes → Bytes → LuaEnd × σ) : RowCallback (σ × Bool) Bytes Bytes :=
  fun (st, err) k v =>
    match fn st k v with
    | (.raised, st) => (1, (st, true))
    | (.returned stop, st) => (if stop then 1 else 0, (st, err))

/-- The end of `l_scan`: raise the error of the callback again, or push the row count. -/
def scanAnswer (n : ℤ) (err : Bool) : LuaAnswer :=
  if err then .raised else .integer n

end Keybench
