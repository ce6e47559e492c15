import LineShell.Config.Overlay
import Mathlib.Data.List.Basic

/-!
# Merged lists

A list that is merged keeps the items that are not removed, as they are, and gets those
to be added that it lacks, each once and in the order in which they first come up. What
is both removed and added is there in the end. So a second time an overlay finds the
directories that it left, and changes their order at most.
-/

set_option autoImplicit false

namespace LineShell.Config

section Lists

variable {base add remove : List String} {item : String}

theorem addMissing_eq (base add : List String) :
    addMissing base add = base ++ (add.filter (· ∉ base)).eraseDups := by
  induction add generalizing base with
  | nil => simp [addMissing]
  | cons item add ih =>
    have hfirst : addMissing base (item :: add) =
        addMissing (if base.contains item then base else base ++ [item]) add := rfl
    rw [hfirst, ih]
    by_cases hitem : item ∈ base
    · rw [if_pos (List.contains_iff_mem.mpr hitem), List.filter_cons_of_neg (by simpa using hitem)]
    · -- the later occurrences of the item are left out by the filter, as by the erasure
      have hlater : (add.filter (· ∉ base)).filter (fun other => !other == item) =
          add.filter (· ∉ base ++ [item]) := by
        rw [List.filter_filter]
        refine List.filter_congr fun other _ => ?_
        by_cases hsame : other = item
        · simp [hsame]
        · simp [hsame]
      rw [if_neg (by simpa using hitem), List.filter_cons_of_pos (by simpa using hitem),
        List.eraseDups_cons, hlater, List.append_assoc]
      rfl

theorem nodup_eraseDups (items : List String) : items.eraseDups.Nodup := by
  cases items with
  | nil => exact List.nodup_nil
  | cons item items =>
    rw [List.eraseDups_cons, List.nodup_cons]
    exact ⟨by simp, nodup_eraseDups _⟩
termination_by items.length
decreasing_by exact Nat.lt_succ_of_le (List.length_filter_le _ _)

theorem mergeList_false (base add remove : List String) :
    mergeList base add remove false =
      base.filter (· ∉ remove) ++
        (add.filter (· ∉ base.filter (· ∉ remove))).eraseDups := by
  have hkept : (base.filter fun item => !remove.contains item) = base.filter (· ∉ remove) :=
    List.filter_congr fun item _ => by simp
  rw [mergeList, if_neg Bool.false_ne_true, hkept, addMissing_eq]

theorem mem_mergeList : item ∈ mergeList base add remove false ↔
    item ∈ add ∨ item ∈ base ∧ item ∉ remove := by
  rw [mergeList_false, List.mem_append, List.mem_eraseDups]
  simp only [List.mem_filter, decide_eq_true_eq]
  tauto

theorem mergeList_nodup (h : base.Nodup) : (mergeList base add remove false).Nodup := by
  rw [mergeList_false, List.nodup_append]
  refine ⟨h.filter _, nodup_eraseDups _, fun old hold new hnew => ?_⟩
  rintro rfl
  rw [List.mem_eraseDups, List.mem_filter, decide_eq_true_eq] at hnew
  exact hnew.2 hold

theorem mergeList_same (hadd : add ⊆ base) (hremove : base.Disjoint remove) :
    mergeList base add remove false = base := by
  have hkept : base.filter (· ∉ remove) = base := by
    rw [List.filter_eq_self]
    exact fun item hitem => decide_eq_true (hremove hitem)
  have hnone : add.filter (· ∉ base) = [] := by
    rw [List.filter_eq_nil_iff]
    intro item hitem
    simpa using hadd hitem
  rw [mergeList_false, hkept, hnone, List.eraseDups_nil, List.append_nil]

end Lists

section Overlays

variable (c : Config) (o : Overlay)

theorem apply_again (h : mergeList (c.apply o).extraDirs o.extraDirs o.removedDirs o.replace =
    (c.apply o).extraDirs) : (c.apply o).apply o = c.apply o := by
  have hchoice {α : Type} (choice : Option α) (other : α) :
      choice.getD (choice.getD other) = choice.getD other := by
    cases choice with
    | none => rfl
    | some a => rfl
  unfold apply at h ⊢
  simp only [hchoice, h]

theorem mem_apply_again (item : String) :
    item ∈ ((c.apply o).apply o).extraDirs ↔ item ∈ (c.apply o).extraDirs := by
  have hfirst : (c.apply o).extraDirs = mergeList c.extraDirs o.extraDirs o.removedDirs o.replace :=
    rfl
  have hagain : ((c.apply o).apply o).extraDirs =
      mergeList (c.apply o).extraDirs o.extraDirs o.removedDirs o.replace := rfl
  rw [hagain, hfirst]
  cases o.replace with
  | true => rfl
  | false =>
    rw [mem_mergeList, mem_mergeList]
    tauto

/-- Without replacing, a merged list is what was not removed, as it was, followed by what is
new of the items to be added, each once. With replacing it is the list of these. The same
overlay again leads to the same directories, and to the very same configuration if it
replaces the list or adds nothing that it removes. -/
theorem mergeList_items (base add remove : List String) (c : Config) (o : Overlay) :
    let kept := base.filter (· ∉ remove)
    let merged := mergeList base add remove false
    mergeList base add remove true = add ∧
      merged = kept ++ (add.filter (· ∉ kept)).eraseDups ∧
      (∀ item ∈ add, item ∈ merged) ∧ (∀ item ∈ remove, item ∈ merged → item ∈ add) ∧
      (base.Nodup → merged.Nodup) ∧
      (∀ item, item ∈ ((c.apply o).apply o).extraDirs ↔ item ∈ (c.apply o).extraDirs) ∧
      (o.extraDirs.Disjoint o.removedDirs ∨ o.replace = true →
        (c.apply o).apply o = c.apply o) := by
  intro kept merged
  refine ⟨rfl, mergeList_false base add remove, fun item hitem => mem_mergeList.mpr (.inl hitem),
    fun item hremove hmerged => ?_, mergeList_nodup, mem_apply_again c o, fun hcalm => ?_⟩
  · rcases mem_mergeList.mp hmerged with hadd | ⟨-, hkept⟩
    · exact hadd
    · exact absurd hremove hkept
  · apply apply_again
    cases hreplace : o.replace with
    | true =>
      rw [apply, hreplace]
      rfl
    | false =>
      have hdisjoint : o.extraDirs.Disjoint o.removedDirs := hcalm.resolve_right (by simp [hreplace])
      have hdirs : (c.apply o).extraDirs = mergeList c.extraDirs o.extraDirs o.removedDirs false := by
        rw [apply, hreplace]
      rw [hdirs]
      refine mergeList_same (fun item hitem => mem_mergeList.mpr (.inl hitem)) fun item hitem => ?_
      rcases mem_mergeList.mp hitem with hadd | ⟨-, hkept⟩
      · exact hdisjoint hadd
      · exact hkept

/-- What is removed and added again comes after what stays. -/
theorem mergeList_items_readded :
    let base := ["/usr/games", "/opt/bin"]
    let add := ["~/bin", "/usr/games", "~/bin", "/opt/bin"]
    let remove := ["/usr/games"]
    let merged := mergeList base add remove false
    let c : Config := { standard with extraDirs := base }
    let o : Overlay := ⟨none, false, none, ["~/bin"], remove, none, none⟩
    "~/bin" ∈ add ∧ "/usr/games" ∈ remove ∧ base.Nodup ∧ o.extraDirs.Disjoint o.removedDirs ∧
      merged = ["/opt/bin", "~/bin", "/usr/games"] ∧ "~/bin" ∈ merged ∧ "/usr/games" ∈ add ∧
      merged.Nodup ∧ (c.apply o).apply o = c.apply o := by
  intro base add remove merged c o
  have hdistinct : base.Nodup := by decide
  have hdisjoint : o.extraDirs.Disjoint o.removedDirs := List.disjoint_left.mpr (by decide)
  have hadd : "~/bin" ∈ add := by decide
  have hremove : "/usr/games" ∈ remove := by decide
  obtain ⟨-, hmerged, hadded, hreadded, hnodup, -, hagain⟩ := mergeList_items base add remove c o
  have hitems : merged = ["/opt/bin", "~/bin", "/usr/games"] := hmerged.trans (by decide)
  have hlast : "/usr/games" ∈ merged := by
    rw [hitems]
    decide
  exact ⟨hadd, hremove, hdistinct, hdisjoint, hitems, hadded _ hadd, hreadded _ hremove hlast,
    hnodup hdistinct, hagain (.inl hdisjoint)⟩

/-- Where an item is removed and added, another time changes the order. -/
example : mergeList (mergeList [] ["a", "b"] ["a"] false) ["a", "b"] ["a"] false = ["b", "a"] := by
  decide

end Overlays

end LineShell.Config
