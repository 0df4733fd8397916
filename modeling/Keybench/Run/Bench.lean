import Keybench.Run.Sections
import Keybench.Run.Setup

/-!
# The bench section of a replay file

The bench section of a replay file has the entries of the pieces in which the lines are read
(`cfgSection_saveConfig`).  When these are the entries of the lines, it gives the knobs that were
written, each under its key, and then the entries of other sections whose names read as `bench`
(`savedSection_reads`).
-/

namespace Keybench

/-! ## Lookups -/

/-- The entries of the other sections that are read into the bench section. -/
def aliasEntries (conf : Option CfgFile) : List (Bytes × Bytes) :=
  ((otherSections (conf.getD [])).filter (fun o => nameRead o = benchName)).flatMap entriesRead

/-- The loop of `cfg_load` has `bench` as its first section, and knows when it is the current
one. -/
structure TracksBench (items : List CfgItem) (st : CfgState) : Prop where
  /-- The bench section. -/
  head : st.1.head? = some ⟨benchName, entriesOf items benchName⟩
  /-- Whether it is the current one. -/
  current : st.2 = 0 ↔ currentAfter benchName items = benchName

/-- Selecting a section whose name may be cut. -/
theorem TracksBench.select {items : List CfgItem} {st : CfgState} (h : TracksBench items st)
    (name : Bytes) :
  TracksBench (items ++ [.select name]) (applyItem st (.select name))
  := by
  obtain ⟨rest, hrest⟩ := List.head?_eq_some_iff.mp h.head
  have hhead : (applyItem st (.select name)).1.head? = st.1.head?
      ∧ ((applyItem st (.select name)).2 = 0 ↔ name = benchName) := by
    rw [applyItem, fileSection, hrest, List.findIdx?_cons]
    by_cases hname : benchName = name
    · simp [hname]
    · cases hidx : rest.findIdx? (fun o => o.name = name) with
      | none => simp [hname, Ne.symm hname]
      | some i => simp [hname, Ne.symm hname]
  constructor
  · rw [hhead.1, h.head, entriesOf_select]
  · rw [hhead.2, currentAfter_select]

/-- Adding an entry. -/
theorem TracksBench.entry {items : List CfgItem} {st : CfgState} (h : TracksBench items st)
    (k v : Bytes) :
  TracksBench (items ++ [.entry k v]) (applyItem st (.entry k v))
  := by
  obtain ⟨rest, hrest⟩ := List.head?_eq_some_iff.mp h.head
  constructor
  · have hcurrent := h.current
    rw [applyItem, hrest, entriesOf_entry]
    cases hidx : st.2 with
    | zero => simp [hcurrent.mp hidx, sectionAdd]
    | succ i =>
      have hother : currentAfter benchName items ≠ benchName := by
        intro hbench
        rw [hcurrent.mpr hbench] at hidx
        cases hidx
      simp [hother]
  · rw [currentAfter_entry]
    apply h.current

/-- A value that is read back: it has no spaces around it, and no comment starts in it. -/
def Clean (v : Bytes) : Prop := Text.trimBy isspace v = v ∧ Uncut true v

end Keybench
