import LineShell.Proofs.Growth

/-!
# Making files

A file is made where a path leads to an unused name. What was made once is there
from then on, under its path. In a grown tree the same request finds the file,
and a request that failed before fails again, if not always for the same reason.
-/

set_option autoImplicit false

namespace LineShell.FileTree

theorem walk_vacant {t : FileTree} {purpose : Purpose} {links : Nat} {loc spot : Location}
    {steps : List String} {slash : Bool}
    (h : walk t purpose links loc steps slash = .ok (.vacant spot)) : t.node? spot = none := by
  fun_induction walk t purpose links loc steps slash with
  | case7 links loc slash step rest h1 h2 isLast next h3 h4 hn hlast =>
    simp only [Except.ok.injEq, Place.vacant.injEq] at h
    rw [← h]
    exact hn
  | case3 _ _ _ _ ih | case4 _ _ _ _ _ ih => exact ih h
  | case9 _ _ _ _ _ _ _ _ _ _ _ _ ih => exact ih h
  | case12 _ _ _ _ _ _ _ _ _ _ _ _ _ _ _ ih => exact ih h
  | _ => cases h

theorem walk_found {t : FileTree} {purpose : Purpose} {links : Nat} {loc dest : Location}
    {steps : List String} {slash : Bool} {node : Node}
    (h : walk t purpose links loc steps slash = .ok (.found dest node)) :
    t.node? dest = some node := by
  fun_induction walk t purpose links loc steps slash with
  | case1 links loc slash node hn =>
    cases h
    exact hn
  | case3 _ _ _ _ ih | case4 _ _ _ _ _ ih => exact ih h
  | case9 _ _ _ _ _ _ _ _ _ _ _ _ ih => exact ih h
  | case10 links loc slash step rest h1 h2 isLast next h3 h4 target hn hlast =>
    simp only [Except.ok.injEq, Place.found.injEq] at h
    rw [← h.1, ← h.2]
    exact hn
  | case12 _ _ _ _ _ _ _ _ _ _ _ _ _ _ _ ih => exact ih h
  | case13 links loc slash step rest h1 h2 isLast next h3 h4 node hd hl hn hlast =>
    simp only [Except.ok.injEq, Place.found.injEq] at h
    rw [← h.1, ← h.2]
    exact hn
  | _ => cases h

theorem walk_ne_alreadyExists (t : FileTree) (purpose : Purpose) (links : Nat) (loc : Location)
    (steps : List String) (slash : Bool) :
    walk t purpose links loc steps slash ≠ .error .alreadyExists := by
  fun_induction walk t purpose links loc steps slash with
  | case3 _ _ _ _ ih | case4 _ _ _ _ _ ih => exact ih
  | case9 _ _ _ _ _ _ _ _ _ _ _ _ ih => exact ih
  | case12 _ _ _ _ _ _ _ _ _ _ _ _ _ _ _ ih => exact ih
  | _ => simp

/-- A file that stands in the way of a new one is what the path names. -/
theorem walk_look_of_file {t : FileTree} {links : Nat} {loc spot : Location}
    {steps : List String} {slash : Bool} {content : Bytes} {mode : Nat}
    (h : walk t .makeNewFile links loc steps slash = .ok (.found spot (.file content mode))) :
    walk t .look links loc steps slash = .ok (.found spot (.file content mode)) := by
  fun_induction walk t .makeNewFile links loc steps slash with
  | case1 links loc slash node hn =>
    rw [walk, hn]
    exact h
  | case3 links loc slash rest ih =>
    rw [walk, if_pos rfl]
    exact ih h
  | case4 links loc slash rest hne ih =>
    rw [walk, if_neg hne, if_pos rfl]
    exact ih h
  | case9 links loc slash step rest h1 h2 isLast next h3 h4 hn ih =>
    rw [walk_directory ⟨h1, h2, by simp [Purpose.refusesSlash], h4⟩ hn]
    exact ih h
  | case10 links loc slash step rest h1 h2 isLast next h3 h4 target hn hlast => simp at h
  | case12 loc slash step rest h1 h2 isLast next h3 h4 target hn hlast links path ih =>
    have hrest : rest.isEmpty = false := by simpa [isLast, Purpose.followsLast] using hlast
    rw [walk_link_followed ⟨h1, h2, by simp [Purpose.refusesSlash], h4⟩ hn (by simp [hrest])]
    simp only [isLast, hrest] at ih h ⊢
    exact ih h
  | case13 links loc slash step rest h1 h2 isLast next h3 h4 node hd hl hn hlast =>
    have hslash : slash = false := by
      simp only [Purpose.followsLast, Bool.and_eq_true] at hlast
      simpa [hlast.1, Purpose.refusesSlash] using h3
    have hrest : rest.isEmpty = true := by
      simp only [Bool.and_eq_true] at hlast
      exact hlast.1
    rw [walk_leaf ⟨h1, h2, by simp [Purpose.refusesSlash], h4⟩ hn hd hl,
      if_pos (by simp [hrest, hslash])]
    exact h
  | _ => cases h

section Paths

variable {t u : FileTree} {start : Location} {p : Path}

/-- The path starts at the root or from a directory. -/
def Anchored (t : FileTree) (start : Location) (p : Path) : Prop :=
  p.isAbsolute = true ∨ t.Grounded start

theorem Anchored.origin (h : t.Anchored start p) :
    t.Grounded (if p.isAbsolute then [] else start) := by
  rcases h with habs | hg
  · rw [if_pos habs]
    exact .root
  · exact hg.origin _

theorem Anchored.grown (h : t.Anchored start p) (hx : t.Extends u) : u.Anchored start p := by
  rcases h with habs | hg
  · exact .inl habs
  · exact .inr (hg.grown hx)

theorem follow_walks (start : Location) (p : Path) :
    (∃ e : OsError, e ≠ .alreadyExists ∧
      ∀ (t : FileTree) (purpose : Purpose), t.follow start purpose p = .error e) ∨
    ∀ (t : FileTree) (purpose : Purpose), t.follow start purpose p =
      walk t purpose linkLimit (if p.isAbsolute then [] else start) p.steps
        (Path.endsInSlash p.text) := by
  by_cases hnul : p.text.toList.any (·.toNat = 0) = true
  · exact .inl ⟨.nulInPath, by simp, fun t purpose => by rw [follow, if_pos hnul]⟩
  by_cases hempty : p.text = ""
  · exact .inl ⟨.notFound, by simp, fun t purpose => by
      rw [follow, if_neg hnul, if_pos hempty]⟩
  by_cases hlong : p.text.utf8ByteSize ≥ pathLimit
  · exact .inl ⟨.nameTooLong, by simp, fun t purpose => by
      rw [follow, if_neg hnul, if_neg hempty, if_pos hlong]⟩
  · exact .inr fun t purpose => by
      rw [follow, if_neg hnul, if_neg hempty, if_neg hlong]

theorem follow_ne_alreadyExists (t : FileTree) (start : Location) (purpose : Purpose)
    (p : Path) : t.follow start purpose p ≠ .error .alreadyExists := by
  rcases follow_walks start p with ⟨e, he, hf⟩ | hf
  · rw [hf t purpose]
    simpa using he
  · rw [hf t purpose]
    exact walk_ne_alreadyExists _ _ _ _ _ _

theorem follow_found {purpose : Purpose} {dest : Location} {node : Node}
    (h : t.follow start purpose p = .ok (.found dest node)) : t.node? dest = some node := by
  rcases follow_walks start p with ⟨e, _, hf⟩ | hf
  · rw [hf] at h
    cases h
  · rw [hf] at h
    exact walk_found h

theorem follow_vacant {purpose : Purpose} {dest : Location}
    (h : t.follow start purpose p = .ok (.vacant dest)) : t.node? dest = none := by
  rcases follow_walks start p with ⟨e, _, hf⟩ | hf
  · rw [hf] at h
    cases h
  · rw [hf] at h
    exact walk_vacant h

theorem follow_grown (h : t.Extends u) (ha : t.Anchored start p) (purpose : Purpose) :
    Settles u purpose (t.follow start purpose p) (u.follow start purpose p) := by
  rcases follow_walks start p with ⟨e, _, hf⟩ | hf
  · rw [hf t, hf u]
    exact .failed e e
  · rw [hf t, hf u]
    exact walk_grown h purpose _ _ _ _ ha.origin

theorem follow_shrunk {purpose : Purpose} {dest : Location} {node : Node} (h : t.Extends u)
    (hfound : u.follow start purpose p = .ok (.found dest node)) :
    t.follow start purpose p = .ok (.found dest node) ∨ node = .file [] newFileMode := by
  rcases follow_walks start p with ⟨e, _, hf⟩ | hf
  · rw [hf] at hfound
    cases hfound
  · rw [hf] at hfound ⊢
    exact walk_shrunk h hfound

theorem look_of_file {spot : Location} {content : Bytes} {mode : Nat}
    (h : t.follow start .makeNewFile p = .ok (.found spot (.file content mode))) :
    t.look start p = .ok (spot, .file content mode) := by
  rcases follow_walks start p with ⟨e, _, hf⟩ | hf
  · rw [hf] at h
    cases h
  · rw [hf] at h
    rw [look, hf, walk_look_of_file h]

theorem isDirectory_grown (h : t.Extends u) (ha : t.Anchored start p) :
    u.isDirectory start p = t.isDirectory start p := by
  have hs := follow_grown h ha .look
  unfold isDirectory look
  generalize t.follow start .look p = before at hs
  generalize u.follow start .look p = after at hs
  cases hs <;> rfl

theorem create_eq_ok {made : FileTree} (h : t.create start p = .ok made) :
    ∃ spot, t.follow start .makeNewFile p = .ok (.vacant spot) ∧ t.node? spot = none ∧
      made = t.put spot (.file [] newFileMode) := by
  unfold create at h
  split at h
  · rename_i spot hf
    cases h
    exact ⟨spot, hf, follow_vacant hf, rfl⟩
  · cases h
  · cases h

theorem create_extends {made : FileTree} (h : t.create start p = .ok made) : t.Extends made := by
  obtain ⟨spot, _, hnone, rfl⟩ := create_eq_ok h
  exact .put hnone

theorem create_after_ok {made : FileTree} (h : t.create start p = .ok made)
    (hx : made.Extends u) (ha : t.Anchored start p) :
    u.create start p = .error .alreadyExists ∧
      ∃ spot, made = t.put spot (.file [] newFileMode) ∧
        u.look start p = .ok (spot, .file [] newFileMode) := by
  have hgrow := (create_extends h).trans hx
  obtain ⟨spot, hf, hnone, rfl⟩ := create_eq_ok h
  have hspot : spot ≠ [] := by
    intro heq
    rw [heq] at hnone
    cases hnone
  have hmade := hx.kept spot _ (node?_put_self hspot)
  have hs := follow_grown hgrow ha .makeNewFile
  rw [hf] at hs
  have hu : u.follow start .makeNewFile p = .ok (.found spot (.file [] newFileMode)) := by
    generalize u.follow start .makeNewFile p = after at hs
    cases hs with
    | vacant _ hfree =>
      rw [hmade] at hfree
      cases hfree
    | taken _ _ => rfl
    | barred _ hslash => cases hslash
  constructor
  · rw [create, hu]
  · exact ⟨spot, rfl, look_of_file hu⟩

theorem create_after_there (h : t.create start p = .error .alreadyExists)
    (hx : t.Extends u) (ha : t.Anchored start p) :
    u.create start p = .error .alreadyExists := by
  have hs := follow_grown hx ha .makeNewFile
  have hne := follow_ne_alreadyExists t start .makeNewFile p
  unfold create at h ⊢
  generalize t.follow start .makeNewFile p = before at h hs hne
  generalize u.follow start .makeNewFile p = after at hs
  cases hs with
  | found loc node => rfl
  | vacant loc _ | taken loc _ | barred loc _ => cases h
  | failed e e' =>
    cases h
    exact absurd rfl hne

theorem create_after_error {e : OsError} (h : t.create start p = .error e)
    (he : e ≠ .alreadyExists) (hx : t.Extends u) (ha : t.Anchored start p) :
    ∃ e', e' ≠ .alreadyExists ∧ u.create start p = .error e' := by
  have hs := follow_grown hx ha .makeNewFile
  have hne := follow_ne_alreadyExists u start .makeNewFile p
  unfold create at h ⊢
  generalize t.follow start .makeNewFile p = before at h hs
  generalize u.follow start .makeNewFile p = after at hs hne
  cases hs with
  | found loc node =>
    cases h
    exact absurd rfl he
  | vacant loc _ | taken loc _ | barred loc _ => cases h
  | failed e e' => exact ⟨e', fun heq => hne (congrArg _ heq), rfl⟩

end Paths

end LineShell.FileTree
