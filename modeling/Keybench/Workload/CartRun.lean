import Keybench.Kv.Verbs
import Keybench.Workload.Cart

/-!
# Runs of the cart workload

`cartRun` is what one call of `run` of the cart workload does: it draws a user, an operation, and
for most operations an item, and then calls the verbs of the operation (`CartOp.prog`).
-/

namespace Keybench

/-! ## Operations -/

/-- An operation of `run`. -/
inductive CartOp
  /-- A line is put into the cart of a user. -/
  | add (uid iid : ℤ)
  /-- The cart of a user is read. -/
  | view (uid : ℤ)
  /-- A line is read. -/
  | get (uid iid : ℤ)
  /-- A line is written again. -/
  | update (uid iid : ℤ)
  /-- A line is deleted. -/
  | remove (uid iid : ℤ)
  /-- The cart of a user is emptied. -/
  | checkout (uid : ℤ)
deriving DecidableEq

/-- The user and the item of the line that an operation puts, gets or deletes by id. -/
def CartOp.line : CartOp → Option (ℤ × ℤ)
  | .add uid iid | .get uid iid | .update uid iid | .remove uid iid => some (uid, iid)
  | .view _ | .checkout _ => none

/-- `cart_bounds`, which raises an error for a negative user. -/
def cartBounds (uid : ℤ) : Option (Bytes × Bytes) :=
  if uid < 0 then none
  else some (ascii "u:" ++ fmt010 uid ++ ascii ":c:", ascii "u:" ++ fmt010 uid ++ ascii ":c;")

/-- A call whose answer is discarded. -/
def callOnce (verb : KvVerb) (args : List LuaArg) : LuaProg :=
  .call verb args fun answer => if answer = .raised then .raise else .ret false

/-- `kv_del` of some keys; an error ends the program. -/
def delAll : List Bytes → LuaProg
  | [] => .ret false
  | k :: ks => .call .del [luaString k] fun answer =>
    if answer = .raised then .raise else delAll ks

/-- `kv_range` over the bounds of a user, and then what is done with the rows. -/
def rangeOfUser (uid : ℤ) (next : List (Bytes × Bytes) → LuaProg) : LuaProg :=
  match cartBounds uid with
  | none => .raise
  | some (lo, hi) => .call .range [luaString lo, luaString hi] fun answer =>
    match answer with
    | .rows rows => next rows
    | _ => .raise

/-- The verbs that an operation calls. -/
def CartOp.prog : CartOp → LuaProg
  | .add uid iid => callOnce .put [luaString (lineKey uid iid), luaString cartValue]
  | .view uid => rangeOfUser uid fun _ => .ret false
  | .get uid iid => callOnce .get [luaString (lineKey uid iid)]
  | .update uid iid => callOnce .put [luaString (lineKey uid iid), luaString cartValue]
  | .remove uid iid => callOnce .del [luaString (lineKey uid iid)]
  | .checkout uid => rangeOfUser uid fun rows => delAll (rows.map Prod.fst)

/-! ## Draws -/

section Draws

variable {G : Type} (rng : LuaRandom G) (hot : ℤ → G → ℤ × G)

/-- `hot_user`, which raises an error when there are no users, or when the number `hot` that it
computes from a draw is not the id of one. -/
def hotUser (users : ℤ) (g : G) : Option (ℤ × G) :=
  if users < 1 then none
  else
    let (uid, g) := hot users g
    if uid < 0 ∨ users ≤ uid then none else some (uid, g)

/-- `run`: the operation of a call, or `none` when it raises an error. -/
def cartRun (users items : ℤ) (g : G) : Option (CartOp × G) := do
  let (uid, g) ← hotUser hot users g
  let (roll, g) := rng.random g 1 100
  if roll ≤ 35 then
    let (iid, g) ← pickItem rng uid items g
    some (.add uid iid, g)
  else if roll ≤ 60 then some (.view uid, g)
  else if roll ≤ 75 then
    let (iid, g) ← pickItem rng uid items g
    some (.get uid iid, g)
  else if roll ≤ 85 then
    let (iid, g) ← pickItem rng uid items g
    some (.update uid iid, g)
  else if roll ≤ 95 then
    let (iid, g) ← pickItem rng uid items g
    some (.remove uid iid, g)
  else some (.checkout uid, g)

/-- Some operations that calls of `run` do one after the other. -/
inductive CartRuns (users items : ℤ) : G → List CartOp → Prop
  /-- There is no call. -/
  | nil (g : G) : CartRuns users items g []
  /-- A call, and the calls after it. -/
  | cons {g g' : G} {op : CartOp} {ops : List CartOp} :
    cartRun rng hot users items g = some (op, g') → CartRuns users items g' ops →
      CartRuns users items g (op :: ops)

end Draws

end Keybench
