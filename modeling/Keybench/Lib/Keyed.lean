import Mathlib.Data.List.Induction
import Mathlib.Data.List.Nodup
import Mathlib.Tactic.Use

/-!
# Lists given by distinct keys

The distinct elements of a list in the order in which they first appear, when an element is
added at the end, and the change of one element of a list that is given by distinct keys.
-/

namespace Keyed

variable {κ α : Type*}

section Distinct

variable [BEq κ] [LawfulBEq κ]

/-- A last element that has appeared before is not listed again. -/
theorem eraseDups_concat (ks : List κ) (k : κ) :
  (ks ++ [k]).eraseDups = if k ∈ ks then ks.eraseDups else ks.eraseDups ++ [k]
  := by
  rw [List.eraseDups_append]
  split_ifs with h
  · have hnil : [k].removeAll ks = [] := by
      rw [List.removeAll, List.filter_cons_of_neg, List.filter_nil]
      simpa using h
    rw [hnil, List.eraseDups_nil, List.append_nil]
  · have hself : [k].removeAll ks = [k] := by
      rw [List.removeAll, List.filter_cons_of_pos, List.filter_nil]
      simpa using h
    rw [hself, List.eraseDups_cons, List.filter_nil, List.eraseDups_nil]

/-- No element is listed twice. -/
theorem nodup_eraseDups (ks : List κ) :
  ks.eraseDups.Nodup
  := by
  induction ks using List.reverseRecOn with
  | nil => exact List.nodup_nil
  | append_singleton ks k ih =>
    rw [eraseDups_concat]
    split_ifs with h
    · apply ih
    · apply List.Nodup.append ih (List.nodup_singleton k)
      intro x hx hxk
      rw [List.mem_singleton] at hxk
      rw [List.mem_eraseDups, hxk] at hx
      apply h hx

/-- Distinct elements are all listed. -/
theorem eraseDups_of_nodup {ks : List κ} (h : ks.Nodup) :
  ks.eraseDups = ks
  := by
  induction ks using List.reverseRecOn with
  | nil => rfl
  | append_singleton ks k ih =>
    obtain ⟨hks, -, hdisj⟩ := List.nodup_append.mp h
    have hk : k ∉ ks := fun hmem => hdisj k hmem k (List.mem_singleton_self k) rfl
    rw [eraseDups_concat, if_neg hk, ih hks]

end Distinct

/-- The value of a key by its position, when keys are distinct. -/
theorem lookup_zip [BEq κ] [LawfulBEq κ] {ks : List κ} (h : ks.Nodup) (vs : List α) {i : ℕ} {k : κ}
    (hi : ks[i]? = some k) :
  (ks.zip vs).lookup k = vs[i]?
  := by
  induction ks generalizing vs i with
  | nil => simp at hi
  | cons j ks ih =>
    obtain ⟨hj, hks⟩ := List.nodup_cons.mp h
    cases vs with
    | nil => rfl
    | cons v vs =>
      rw [List.zip_cons_cons, List.lookup_cons]
      cases i with
      | zero =>
        obtain rfl := Option.some.inj hi
        simp
      | succ i =>
        rw [List.getElem?_cons_succ] at hi
        have hne : (k == j) = false := by
          apply beq_eq_false_iff_ne.mpr
          rintro rfl
          apply hj (List.mem_of_getElem? hi)
        rw [hne, ih hks vs hi, List.getElem?_cons_succ]

/-- The elements with the key of an element are that element, when keys are distinct. -/
theorem filter_key [DecidableEq κ] (f : α → κ) {l : List α} (h : (l.map f).Nodup) {x : α}
    (hx : x ∈ l) :
  l.filter (fun y => f y = f x) = [x]
  := by
  induction l with
  | nil => cases hx
  | cons y l ih =>
    obtain ⟨hy, hl⟩ := List.nodup_cons.mp h
    rcases List.mem_cons.mp hx with rfl | hx
    · have hnone : l.filter (fun y => f y = f x) = [] := by
        apply List.filter_eq_nil_iff.mpr
        intro z hz heq
        apply hy
        rw [← of_decide_eq_true heq]
        apply List.mem_map_of_mem hz
      rw [List.filter_cons_of_pos (by simp), hnone]
    · have hne : ¬ f y = f x := fun heq => hy (heq ▸ List.mem_map_of_mem hx)
      rw [List.filter_cons_of_neg (by simp [hne]), ih hl hx]

/-- Changing the element of one key. -/
theorem modify_map [DecidableEq κ] (f : κ → α) (g : α → α) {ks : List κ} (hks : ks.Nodup) {i : ℕ} {k : κ}
    (hi : ks[i]? = some k) :
  (ks.map f).modify i g = ks.map (fun j => if j = k then g (f j) else f j)
  := by
  obtain ⟨hlt, hik⟩ := List.getElem?_eq_some_iff.mp hi
  apply List.ext_getElem?
  intro m
  rw [List.getElem?_modify, List.getElem?_map, List.getElem?_map]
  cases hm : ks[m]? with
  | none => rfl
  | some j =>
    obtain ⟨hltm, hmj⟩ := List.getElem?_eq_some_iff.mp hm
    have hiff : j = k ↔ i = m := by
      rw [← hik, ← hmj, hks.getElem_inj_iff, eq_comm]
    rw [Option.map_some, Option.map_some, Option.map_eq_map, Option.map_some, if_congr hiff rfl rfl,
      apply_ite some]

end Keyed
