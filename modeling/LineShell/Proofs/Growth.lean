import LineShell.FileTree.Open

/-!
# Growing trees

A tree grows when empty files are made at unused places and nothing else
changes. A walk through a grown tree takes the steps that it took before: only a
name that was unused at its end may be taken now. No directory comes or goes, so
what was a directory for a path is one still, and nothing else becomes one.
-/

set_option autoImplicit false

namespace LineShell.FileTree

/-- The place is a directory, and so is everything above it. -/
def Grounded (t : FileTree) (loc : Location) : Prop :=
  ∀ above, above <+: loc → t.node? above = some .directory

/-- The second tree has all nodes of the first and otherwise only new files. -/
structure Extends (t u : FileTree) : Prop where
  kept : ∀ loc node, t.node? loc = some node → u.node? loc = some node
  added : ∀ loc node, t.node? loc = none → u.node? loc = some node →
    node = .file [] newFileMode

namespace Grounded

variable {t u : FileTree} {loc : Location}

theorem node (h : t.Grounded loc) : t.node? loc = some .directory :=
  h loc (List.prefix_refl loc)

theorem root : t.Grounded [] := by
  intro above habove
  rw [List.prefix_nil.mp habove]
  rfl

theorem dropLast (h : t.Grounded loc) : t.Grounded loc.dropLast := by
  intro above habove
  exact h above (habove.trans (List.dropLast_prefix loc))

theorem child {name : String} (h : t.Grounded loc)
    (hd : t.node? (loc ++ [name]) = some .directory) : t.Grounded (loc ++ [name]) := by
  intro above habove
  rcases List.prefix_concat_iff.mp habove with heq | hle
  · rw [heq]
    exact hd
  · exact h above hle

theorem origin (h : t.Grounded loc) (absolute : Bool) :
    t.Grounded (if absolute then [] else loc) := by
  cases absolute
  · exact h
  · exact root

theorem grown (h : t.Grounded loc) (hx : t.Extends u) : u.Grounded loc := by
  intro above habove
  exact hx.kept above .directory (h above habove)

end Grounded

namespace Extends

variable {t u v : FileTree}

theorem refl (t : FileTree) : t.Extends t := by
  constructor
  · intro loc node hn
    exact hn
  · intro loc node hnone hsome
    rw [hnone] at hsome
    cases hsome

theorem trans (h : t.Extends u) (h' : u.Extends v) : t.Extends v := by
  constructor
  · intro loc node hn
    exact h'.kept loc node (h.kept loc node hn)
  · intro loc node hnone hsome
    cases hu : u.node? loc with
    | none => exact h'.added loc node hu hsome
    | some old =>
      have hold := h.added loc old hnone hu
      rw [h'.kept loc old hu] at hsome
      cases hsome
      exact hold

theorem old {loc : Location} {node : Node} (h : t.Extends u) (hn : u.node? loc = some node) :
    t.node? loc = some node ∨ node = .file [] newFileMode := by
  cases ht : t.node? loc with
  | none => exact .inr (h.added loc node ht hn)
  | some before =>
    rw [h.kept loc before ht] at hn
    exact .inl hn

theorem put {loc : Location} (hnone : t.node? loc = none) :
    t.Extends (t.put loc (.file [] newFileMode)) := by
  have hloc : loc ≠ [] := by
    intro h
    rw [h] at hnone
    cases hnone
  constructor
  · intro other node hn
    have hne : other ≠ loc := by
      intro h
      rw [h, hnone] at hn
      cases hn
    rw [node?_put_ne hne]
    exact hn
  · intro other node ho hn
    by_cases heq : other = loc
    · rw [heq, node?_put_self hloc] at hn
      cases hn
      rfl
    · rw [node?_put_ne heq, ho] at hn
      cases hn

end Extends

/-! ## Steps to an entry -/

structure Enters (purpose : Purpose) (step : String) (rest : List String) (slash : Bool) :
    Prop where
  notHere : step ≠ "."
  notUp : step ≠ ".."
  noSlash : ¬(rest.isEmpty && slash && purpose.refusesSlash) = true
  short : ¬step.utf8ByteSize > nameLimit

section Entry

variable {t : FileTree} {purpose : Purpose} {links : Nat} {loc : Location} {step : String}
  {rest : List String} {slash : Bool}

theorem walk_unused (he : Enters purpose step rest slash)
    (hn : t.node? (loc ++ [step]) = none) :
    walk t purpose links loc (step :: rest) slash =
      if rest.isEmpty then .ok (.vacant (loc ++ [step])) else .error .notFound := by
  rw [walk]
  simp only [if_neg he.notHere, if_neg he.notUp, if_neg he.noSlash, if_neg he.short, hn]

theorem walk_directory (he : Enters purpose step rest slash)
    (hn : t.node? (loc ++ [step]) = some .directory) :
    walk t purpose links loc (step :: rest) slash =
      walk t purpose links (loc ++ [step]) rest slash := by
  rw [walk]
  simp only [if_neg he.notHere, if_neg he.notUp, if_neg he.noSlash, if_neg he.short, hn]

theorem walk_link_kept {target : String} (he : Enters purpose step rest slash)
    (hn : t.node? (loc ++ [step]) = some (.link target))
    (hkept : (rest.isEmpty && !purpose.followsLast) = true) :
    walk t purpose links loc (step :: rest) slash =
      .ok (.found (loc ++ [step]) (.link target)) := by
  rw [walk]
  simp only [if_neg he.notHere, if_neg he.notUp, if_neg he.noSlash, if_neg he.short, hn,
    if_pos hkept]

theorem walk_link_refused {target : String} (he : Enters purpose step rest slash)
    (hn : t.node? (loc ++ [step]) = some (.link target))
    (hkept : ¬(rest.isEmpty && !purpose.followsLast) = true) :
    walk t purpose 0 loc (step :: rest) slash = .error .tooManyLinks := by
  rw [walk]
  simp only [if_neg he.notHere, if_neg he.notUp, if_neg he.noSlash, if_neg he.short, hn,
    if_neg hkept]

theorem walk_link_followed {target : String} (he : Enters purpose step rest slash)
    (hn : t.node? (loc ++ [step]) = some (.link target))
    (hkept : ¬(rest.isEmpty && !purpose.followsLast) = true) :
    walk t purpose (links + 1) loc (step :: rest) slash =
      walk t purpose links (if (Path.mk target).isAbsolute then [] else loc)
        ((Path.mk target).steps ++ rest)
        (if rest.isEmpty then slash || Path.endsInSlash target else slash) := by
  rw [walk]
  simp only [if_neg he.notHere, if_neg he.notUp, if_neg he.noSlash, if_neg he.short, hn,
    if_neg hkept]

theorem walk_leaf {node : Node} (he : Enters purpose step rest slash)
    (hn : t.node? (loc ++ [step]) = some node) (hd : node ≠ .directory)
    (hl : ∀ target, node ≠ .link target) :
    walk t purpose links loc (step :: rest) slash =
      if rest.isEmpty && (!slash || !purpose.followsLast) then .ok (.found (loc ++ [step]) node)
      else .error .notDirectory := by
  rw [walk]
  simp only [if_neg he.notHere, if_neg he.notUp, if_neg he.noSlash, if_neg he.short, hn]

end Entry

/-! ## Walks in a grown tree -/

/-- How the end of a walk in a tree compares with its end in the grown tree. -/
inductive Settles (u : FileTree) (purpose : Purpose) :
    Except OsError Place → Except OsError Place → Prop
  | found (loc : Location) (node : Node) :
      Settles u purpose (.ok (.found loc node)) (.ok (.found loc node))
  | vacant (loc : Location) (h : u.node? loc = none) :
      Settles u purpose (.ok (.vacant loc)) (.ok (.vacant loc))
  | taken (loc : Location) (h : u.node? loc = some (.file [] newFileMode)) :
      Settles u purpose (.ok (.vacant loc)) (.ok (.found loc (.file [] newFileMode)))
  /-- A slash after the name asks for a directory, and the new node is none. -/
  | barred (loc : Location) (h : purpose.refusesSlash = false) :
      Settles u purpose (.ok (.vacant loc)) (.error .notDirectory)
  | failed (e e' : OsError) : Settles u purpose (.error e) (.error e')

theorem walk_taken {t u : FileTree} {purpose : Purpose} {loc : Location} {step : String}
    {rest : List String} {slash : Bool} (h : t.Extends u) (links : Nat)
    (he : Enters purpose step rest slash) (hn : t.node? (loc ++ [step]) = none) :
    Settles u purpose (walk t purpose links loc (step :: rest) slash)
      (walk u purpose links loc (step :: rest) slash) := by
  rw [walk_unused he hn]
  cases hu : u.node? (loc ++ [step]) with
  | none =>
    rw [walk_unused he hu]
    split
    · exact .vacant _ hu
    · exact .failed _ _
  | some node =>
    have hfile := h.added _ node hn hu
    subst hfile
    rw [walk_leaf he hu (by simp) (by simp)]
    by_cases hlast : rest.isEmpty
    · rw [if_pos hlast]
      by_cases hslash : (!slash || !purpose.followsLast) = true
      · rw [if_pos (by simp [hlast, hslash])]
        exact .taken _ hu
      · -- the slash got past its check, so the walk does not refuse it
        have hrefuse := he.noSlash
        simp only [Bool.or_eq_true, Bool.not_eq_true', not_or, Bool.not_eq_false] at hslash
        rw [if_neg (by simp [hslash])]
        exact .barred _ (by simpa [hlast, hslash] using hrefuse)
    · rw [if_neg hlast, if_neg (by simp [hlast])]
      exact .failed _ _

theorem walk_grown {t u : FileTree} (h : t.Extends u) (purpose : Purpose) (links : Nat)
    (loc : Location) (steps : List String) (slash : Bool) (hg : t.Grounded loc) :
    Settles u purpose (walk t purpose links loc steps slash)
      (walk u purpose links loc steps slash) := by
  fun_induction walk t purpose links loc steps slash with
  | case1 links loc slash node hn =>
    rw [walk, h.kept _ _ hn]
    exact .found loc node
  | case2 links loc slash hn =>
    rw [hg.node] at hn
    cases hn
  | case3 links loc slash rest ih =>
    rw [walk, if_pos rfl]
    exact ih hg
  | case4 links loc slash rest hne ih =>
    rw [walk, if_neg hne, if_pos rfl]
    exact ih hg.dropLast
  | case5 links loc slash step rest h1 h2 isLast h3 =>
    rw [walk, if_neg h1, if_neg h2, if_pos h3]
    exact .failed _ _
  | case6 links loc slash step rest h1 h2 isLast h3 h4 =>
    rw [walk, if_neg h1, if_neg h2, if_neg h3, if_pos h4]
    exact .failed _ _
  | case7 links loc slash step rest h1 h2 isLast next h3 h4 hn hlast =>
    have hw := walk_taken h links ⟨h1, h2, h3, h4⟩ hn
    rw [walk_unused ⟨h1, h2, h3, h4⟩ hn, if_pos hlast] at hw
    exact hw
  | case8 links loc slash step rest h1 h2 isLast next h3 h4 hn hlast =>
    have hw := walk_taken h links ⟨h1, h2, h3, h4⟩ hn
    rw [walk_unused ⟨h1, h2, h3, h4⟩ hn, if_neg hlast] at hw
    exact hw
  | case9 links loc slash step rest h1 h2 isLast next h3 h4 hn ih =>
    rw [walk_directory ⟨h1, h2, h3, h4⟩ (h.kept _ _ hn)]
    exact ih (hg.child hn)
  | case10 links loc slash step rest h1 h2 isLast next h3 h4 target hn hlast =>
    rw [walk_link_kept ⟨h1, h2, h3, h4⟩ (h.kept _ _ hn) hlast]
    exact .found _ _
  | case11 loc slash step rest h1 h2 isLast next h3 h4 target hn hlast =>
    rw [walk_link_refused ⟨h1, h2, h3, h4⟩ (h.kept _ _ hn) hlast]
    exact .failed _ _
  | case12 loc slash step rest h1 h2 isLast next h3 h4 target hn hlast links path ih =>
    rw [walk_link_followed ⟨h1, h2, h3, h4⟩ (h.kept _ _ hn) hlast]
    exact ih (hg.origin _)
  | case13 links loc slash step rest h1 h2 isLast next h3 h4 node hd hl hn hlast =>
    rw [walk_leaf ⟨h1, h2, h3, h4⟩ (h.kept _ _ hn) hd hl, if_pos hlast]
    exact .found _ _
  | case14 links loc slash step rest h1 h2 isLast next h3 h4 node hd hl hn hlast =>
    rw [walk_leaf ⟨h1, h2, h3, h4⟩ (h.kept _ _ hn) hd hl, if_neg hlast]
    exact .failed _ _

/-- What is found in a grown tree was found before, or it is a new file. -/
theorem walk_shrunk {t u : FileTree} {purpose : Purpose} {links : Nat} {loc dest : Location}
    {steps : List String} {slash : Bool} {node : Node} (h : t.Extends u)
    (hfound : walk u purpose links loc steps slash = .ok (.found dest node)) :
    walk t purpose links loc steps slash = .ok (.found dest node) ∨
      node = .file [] newFileMode := by
  -- no directory and no link is new, so only the last step can differ
  fun_induction walk u purpose links loc steps slash with
  | case1 links loc slash last hn =>
    cases hfound
    refine (h.old hn).imp_left fun hn => ?_
    rw [walk, hn]
  | case3 links loc slash rest ih =>
    rw [walk, if_pos rfl]
    exact ih hfound
  | case4 links loc slash rest hne ih =>
    rw [walk, if_neg hne, if_pos rfl]
    exact ih hfound
  | case9 links loc slash step rest h1 h2 isLast next h3 h4 hn ih =>
    rw [walk_directory ⟨h1, h2, h3, h4⟩ ((h.old hn).resolve_right nofun)]
    exact ih hfound
  | case10 links loc slash step rest h1 h2 isLast next h3 h4 target hn hlast =>
    rw [walk_link_kept ⟨h1, h2, h3, h4⟩ ((h.old hn).resolve_right nofun) hlast]
    exact .inl hfound
  | case12 loc slash step rest h1 h2 isLast next h3 h4 target hn hlast links path ih =>
    rw [walk_link_followed ⟨h1, h2, h3, h4⟩ ((h.old hn).resolve_right nofun) hlast]
    exact ih hfound
  | case13 links loc slash step rest h1 h2 isLast next h3 h4 last hd hl hn hlast =>
    simp only [Except.ok.injEq, Place.found.injEq] at hfound
    rw [← hfound.1, ← hfound.2]
    refine (h.old hn).imp_left fun hn => ?_
    rw [walk_leaf ⟨h1, h2, h3, h4⟩ hn hd hl, if_pos hlast]
  | _ => cases hfound

end LineShell.FileTree
