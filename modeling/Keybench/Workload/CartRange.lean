import Keybench.Kv.Limits
import Keybench.Workload.CartRun

/-!
# The cart of a user

The bounds of a user enclose exactly the lines of the user, whatever the number of digits, since
the colon after the user comes after all digits and before the semicolon (`between_cartBounds_iff`).
So a checkout on the skiplist removes the lines of the user and no other line (`checkout_spec`).
-/

namespace Keybench

/-! ## Bounds -/

/-- Colons come after digits. -/
theorem lt_colon_of_isdigit {c : UInt8} (h : isdigit c = true) :
  c < chr ':' ∧ ¬ chr ':' < c ∧ c ≠ chr ':'
  := by
  have hcolon : (chr ':').toNat = 58 := rfl
  rw [isdigit, Bool.and_eq_true, decide_eq_true_eq, decide_eq_true_eq] at h
  rw [UInt8.lt_iff_toNat_lt, UInt8.lt_iff_toNat_lt, Ne, ← UInt8.toNat_inj, hcolon]
  omega

/-- Between texts with the same digits before a colon there are only texts with these digits
before a colon. -/
theorem digits_eq_of_between {a b s t t' : Bytes} (ha : ∀ c ∈ a, isdigit c = true)
    (hb : ∀ c ∈ b, isdigit c = true) (hlo : ¬ a ++ chr ':' :: s < b ++ chr ':' :: t)
    (hhi : a ++ chr ':' :: s < b ++ chr ':' :: t') :
  a = b
  := by
  induction a generalizing b with
  | nil =>
    cases b with
    | nil => rfl
    | cons d b =>
      obtain ⟨-, hlt, hne⟩ := lt_colon_of_isdigit (hb d List.mem_cons_self)
      rw [List.nil_append, List.cons_append, List.cons_lt_cons_iff] at hhi
      rcases hhi with hhi | ⟨hhi, -⟩
      · exact absurd hhi hlt
      · exact absurd hhi.symm hne
  | cons c a ih =>
    obtain ⟨hlt, -, -⟩ := lt_colon_of_isdigit (ha c List.mem_cons_self)
    cases b with
    | nil =>
      rw [List.nil_append, List.cons_append, List.cons_lt_cons_iff] at hlo
      exact absurd (Or.inl hlt) hlo
    | cons d b =>
      rw [List.cons_append, List.cons_append, List.cons_lt_cons_iff] at hlo hhi
      rcases hhi with hhi | ⟨rfl, hhi⟩
      · exact absurd (Or.inl hhi) hlo
      · rw [ih (fun x hx => ha x (List.mem_cons_of_mem _ hx))
          (fun x hx => hb x (List.mem_cons_of_mem _ hx)) (fun h => hlo (Or.inr ⟨rfl, h⟩)) hhi]

/-- A text comes before a longer one. -/
theorem append_lt_append_iff (p a b : Bytes) :
  p ++ a < p ++ b ↔ a < b
  := by
  induction p with
  | nil => rfl
  | cons c p ih =>
    rw [List.cons_append, List.cons_append, List.cons_lt_cons_iff, ih]
    simp

/-- The bounds of a user enclose exactly the lines of the user. -/
theorem between_cartBounds_iff {uid u i : ℤ} (huid : 0 ≤ uid) (hu : 0 ≤ u) {lo hi : Bytes}
    (hbounds : cartBounds uid = some (lo, hi)) :
  lo ≤ lineKey u i ∧ lineKey u i < hi ↔ u = uid
  := by
  rw [cartBounds, if_neg (not_lt.mpr huid)] at hbounds
  obtain ⟨rfl, rfl⟩ := Prod.mk.inj (Option.some.inj hbounds)
  have hlo : ascii ":c:" = chr ':' :: ascii "c:" := rfl
  have hhi : ascii ":c;" = chr ':' :: ascii "c;" := rfl
  simp only [lineKey, List.append_assoc, hlo, hhi, ← not_lt, append_lt_append_iff,
    List.cons_append]
  constructor
  · rintro ⟨hle, hlt⟩
    apply fmt010_injective hu huid
    apply digits_eq_of_between (fun c hc => isdigit_of_mem_fmt010 hu hc)
      (fun c hc => isdigit_of_mem_fmt010 huid hc) hle hlt
  · rintro rfl
    rw [append_lt_append_iff, append_lt_append_iff]
    constructor
    · change ¬ chr ':' :: chr 'c' :: chr ':' :: fmt010 i < chr ':' :: chr 'c' :: chr ':' :: []
      simp
    · change chr ':' :: chr 'c' :: chr ':' :: fmt010 i < chr ':' :: chr 'c' :: chr ';' :: []
      have hlt : chr ':' < chr ';' := by decide
      simp [List.cons_lt_cons_iff, hlt]

/-! ## Checkouts -/

/-- The store holds lines only. -/
def OnlyLines (m : Contents) : Prop :=
  ∀ k v, m.lookup k = some v → ∃ u i, 0 ≤ u ∧ 0 ≤ i ∧ lineKey u i = k

/-- A delete that is not rejected raises no error. -/
theorem del_ne_raised {S : Type} {api : KvStore S} {args : List LuaArg} {w w' : Worker S}
    {answer : LuaAnswer} (h : kvCall api args w .del = some (answer, w')) :
  answer ≠ .raised
  := by
  obtain ⟨k, -, h⟩ := Option.bind_eq_some_iff.mp h
  obtain ⟨rfl, -⟩ := Prod.mk.inj (Option.some.inj h)
  simp

section Skiplist

variable {R C : Type} {rand : R → ℕ × R} (hrand : ∀ r, 0 < (rand r).1 ∧ (rand r).1 ≤ slMaxLevel)
  (clock : C → UInt64 × C)

/-- Deleting some keys one after the other. -/
theorem runLua_delAll (ks : List Bytes) (r : LuaRun (C × HeldSkiplist R)) :
  ∃ r', runLua (skiplistStore hrand clock) (delAll ks) r = (.returned false, r') ∧
    r'.worker.store.2.contents = applyAll r.worker.store.2.contents (ks.map .del)
  := by
  induction ks generalizing r with
  | nil => exact ⟨r, rfl, rfl⟩
  | cons k ks ih =>
    have hkey : luaLChecklstring (luaString k) = some k := rfl
    obtain ⟨answer, w', hcall, hobs⟩ := lDel_observe hrand clock hkey r.worker
    obtain ⟨r', hrun, hcontents⟩ := ih ⟨w', r.made ++ [KvVerb.del.made [luaString k]]⟩
    use r'
    constructor
    · rw [delAll, runLua_call _ hcall, if_neg (del_ne_raised hcall)]
      apply hrun
    · have hdel : w'.store.2.contents = r.worker.store.2.contents.erase k :=
        congrArg Observation.contents hobs
      rw [hcontents, hdel]
      rfl

/-- Reading the range of a user gives the lines between the bounds. -/
theorem runLua_rangeOfUser {uid : ℤ} {lo hi : Bytes} (hbounds : cartBounds uid = some (lo, hi))
    (next : List (Bytes × Bytes) → LuaProg) (r : LuaRun (C × HeldSkiplist R)) :
  ∃ r', runLua (skiplistStore hrand clock) (rangeOfUser uid next) r
      = runLua (skiplistStore hrand clock) (next (r.worker.store.2.contents.slice lo hi)) r' ∧
    r'.worker.store.2 = r.worker.store.2
  := by
  obtain ⟨w', hcall, hstore⟩ :=
    lRange_eq hrand clock [luaString lo, luaString hi] rfl rfl rfl r.worker
  refine ⟨⟨w', r.made ++ [KvVerb.range.made [luaString lo, luaString hi]]⟩, ?_, hstore⟩
  rw [rangeOfUser, hbounds]
  dsimp only
  rw [runLua_call _ hcall]
  rfl

/-- For a user, the half-open range of the bounds holds exactly the lines of the user, and on a
skiplist that holds lines only, a checkout leaves no line of the user and every other key as it
was. -/
theorem checkout_spec {uid : ℤ} (huid : 0 ≤ uid) (r : LuaRun (C × HeldSkiplist R))
    (hlines : OnlyLines r.worker.store.2.contents) :
  ∃ lo hi, cartBounds uid = some (lo, hi) ∧
    (∀ u i, 0 ≤ u → 0 ≤ i →
      (0 ≤ kvKeycmp (lineKey u i) lo ∧ kvKeycmp (lineKey u i) hi < 0 ↔ u = uid)) ∧
    ∃ r', runLua (skiplistStore hrand clock) (CartOp.checkout uid).prog r = (.returned false, r') ∧
      (∀ i, 0 ≤ i → r'.worker.store.2.contents.lookup (lineKey uid i) = none) ∧
      ∀ k, (∀ i, 0 ≤ i → lineKey uid i ≠ k) →
        r'.worker.store.2.contents.lookup k = r.worker.store.2.contents.lookup k
  := by
  obtain ⟨⟨lo, hi⟩, hbounds⟩ : ∃ b, cartBounds uid = some b := by
    rw [cartBounds, if_neg (not_lt.mpr huid)]
    exact ⟨_, rfl⟩
  obtain ⟨r₁, hrange, hstore⟩ := runLua_rangeOfUser hrand clock hbounds
    (fun rows => delAll (rows.map Prod.fst)) r
  obtain ⟨r', hdels, hcontents⟩ := runLua_delAll hrand clock
    ((r.worker.store.2.contents.slice lo hi).map Prod.fst) r₁
  have hmem : ∀ k, k ∈ (r.worker.store.2.contents.slice lo hi).map Prod.fst ↔
      (∃ v, r.worker.store.2.contents.lookup k = some v) ∧ ∃ i, 0 ≤ i ∧ lineKey uid i = k := by
    intro k
    simp only [List.mem_map, Prod.exists, OrderedMap.mem_slice]
    constructor
    · rintro ⟨_, v, ⟨hlook, hbetween⟩, rfl⟩
      obtain ⟨u, i, hu, hi', rfl⟩ := hlines _ v hlook
      obtain rfl := (between_cartBounds_iff huid hu hbounds).mp hbetween
      exact ⟨⟨v, hlook⟩, i, hi', rfl⟩
    · rintro ⟨⟨v, hlook⟩, i, hi', rfl⟩
      exact ⟨_, v, ⟨hlook, (between_cartBounds_iff huid huid hbounds).mpr rfl⟩, rfl⟩
  refine ⟨lo, hi, hbounds, ?_, r', hrange.trans hdels, ?_, ?_⟩
  · intro u i hu _
    rw [kvKeycmp_nonneg_iff, kvKeycmp_neg_iff, between_cartBounds_iff huid hu hbounds]
  · intro i hi'
    rw [hcontents, hstore, lookup_dels]
    split_ifs with hk
    · rfl
    · rw [hmem] at hk
      rw [Option.eq_none_iff_forall_ne_some]
      intro v hlook
      apply hk ⟨⟨v, hlook⟩, i, hi', rfl⟩
  · intro k hk
    rw [hcontents, hstore, lookup_dels, if_neg]
    rw [hmem]
    rintro ⟨-, i, hi', hki⟩
    apply hk i hi' hki

end Skiplist

/-- A line is put into a store of lines. -/
theorem OnlyLines.insert {m : Contents} (h : OnlyLines m) {u i : ℤ} (hu : 0 ≤ u) (hi : 0 ≤ i)
    (v : Bytes) :
  OnlyLines (m.insert (lineKey u i) v)
  := by
  intro k w hlook
  rw [OrderedMap.lookup_insert] at hlook
  split_ifs at hlook with hk
  · exact ⟨u, i, hu, hi, hk.symm⟩
  · apply h k w hlook

/-- A skiplist with two lines of the user seven and one of the user eight. -/
def threeLines : HeldSkiplist UInt64 :=
  ((((HeldSkiplist.new 1).put randLevel_height (lineKey 7 3) cartValue).2.put randLevel_height
    (lineKey 8 0) cartValue).2.put randLevel_height (lineKey 7 12) cartValue).2

/-- A checkout of the user seven. -/
theorem checkout_spec_example :
  ∃ lo hi, cartBounds 7 = some (lo, hi) ∧
    (∀ u i, 0 ≤ u → 0 ≤ i →
      (0 ≤ kvKeycmp (lineKey u i) lo ∧ kvKeycmp (lineKey u i) hi < 0 ↔ u = 7)) ∧
    ∃ r', runLua (skiplistStore randLevel_height (fun u : Unit => (0, u))) (CartOp.checkout 7).prog
        ⟨⟨((), threeLines), statsReset⟩, []⟩ = (.returned false, r') ∧
      (∀ i, 0 ≤ i → r'.worker.store.2.contents.lookup (lineKey 7 i) = none) ∧
      ∀ k, (∀ i, 0 ≤ i → lineKey 7 i ≠ k) →
        r'.worker.store.2.contents.lookup k = threeLines.contents.lookup k
  := by
  have hempty : OnlyLines (OrderedMap.empty : Contents) := by
    intro k v hlook
    cases hlook
  have hlines : OnlyLines threeLines.contents :=
    ((hempty.insert (by decide) (by decide) _).insert (by decide) (by decide) _).insert
      (by decide) (by decide) _
  exact checkout_spec randLevel_height (fun u : Unit => (0, u)) (show (0 : ℤ) ≤ 7 by decide)
    ⟨⟨((), threeLines), statsReset⟩, []⟩ hlines

end Keybench
