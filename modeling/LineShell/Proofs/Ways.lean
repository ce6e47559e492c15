import LineShell.Proofs.Creation

/-!
# Ways to a directory

A way is a walk that takes all of its steps: through directories, up, and along
links. What it leads to is a directory, and any walk may go on from there. Ways
last as long as the directories and the links of a tree.
-/

set_option autoImplicit false

namespace LineShell.FileTree

structure Named (step : String) : Prop where
  notHere : step ≠ "."
  notUp : step ≠ ".."
  short : ¬step.utf8ByteSize > nameLimit

theorem named_iff {step : String} :
    Named step ↔ step ≠ "." ∧ step ≠ ".." ∧ ¬step.utf8ByteSize > nameLimit :=
  ⟨fun h => ⟨h.notHere, h.notUp, h.short⟩, fun ⟨hhere, hup, hshort⟩ => ⟨hhere, hup, hshort⟩⟩

instance (step : String) : Decidable (Named step) := decidable_of_iff _ named_iff.symm

/-- The steps lead from one place to another, which leaves so many links to be
followed. -/
inductive Way (t : FileTree) : Nat → Location → List String → Nat → Location → Prop
  | done (links : Nat) (loc : Location) : Way t links loc [] links loc
  | here {links left : Nat} {loc dest : Location} {rest : List String}
      (h : Way t links loc rest left dest) : Way t links loc ("." :: rest) left dest
  | up {links left : Nat} {loc dest : Location} {rest : List String}
      (h : Way t links loc.dropLast rest left dest) : Way t links loc (".." :: rest) left dest
  | enter {links left : Nat} {loc dest : Location} {step : String} {rest : List String}
      (hstep : Named step) (hn : t.node? (loc ++ [step]) = some .directory)
      (h : Way t links (loc ++ [step]) rest left dest) : Way t links loc (step :: rest) left dest
  | link {links left : Nat} {loc dest : Location} {step target : String} {rest : List String}
      (hstep : Named step) (hn : t.node? (loc ++ [step]) = some (.link target))
      (h : Way t links (if (Path.mk target).isAbsolute then [] else loc)
        ((Path.mk target).steps ++ rest) left dest) :
      Way t (links + 1) loc (step :: rest) left dest

structure Paves (t u : FileTree) : Prop where
  directory : ∀ loc, t.node? loc = some .directory → u.node? loc = some .directory
  link : ∀ loc target, t.node? loc = some (.link target) → u.node? loc = some (.link target)

namespace Paves

variable {t u v : FileTree}

theorem refl (t : FileTree) : t.Paves t := ⟨fun _ h => h, fun _ _ h => h⟩

theorem trans (h : t.Paves u) (h' : u.Paves v) : t.Paves v := by
  constructor
  · intro loc hloc
    exact h'.directory loc (h.directory loc hloc)
  · intro loc target hloc
    exact h'.link loc target (h.link loc target hloc)

end Paves

section Ways

variable {t u : FileTree} {links left : Nat} {loc dest : Location} {steps more : List String}
  {slash : Bool}

theorem Named.enters {step : String} (h : Named step) (purpose : Purpose) {rest : List String}
    (hslash : ¬(rest.isEmpty && slash && purpose.refusesSlash) = true) :
    Enters purpose step rest slash :=
  ⟨h.notHere, h.notUp, hslash, h.short⟩

theorem Way.paved (h : Way t links loc steps left dest) (hp : t.Paves u) :
    Way u links loc steps left dest := by
  induction h with
  | done links loc => exact .done links loc
  | here _ ih => exact .here ih
  | up _ ih => exact .up ih
  | enter hstep hn _ ih => exact .enter hstep (hp.directory _ hn) ih
  | link hstep hn _ ih => exact .link hstep (hp.link _ _ hn) ih

theorem Way.down (links : Nat) (loc : Location) (hsteps : ∀ step ∈ steps, Named step)
    (hdir : ∀ reached, reached <+: loc ++ steps → t.node? reached = some .directory) :
    Way t links loc steps links (loc ++ steps) := by
  induction steps generalizing loc with
  | nil =>
    rw [List.append_nil]
    exact .done links loc
  | cons step steps ih =>
    have hlower : loc ++ step :: steps = (loc ++ [step]) ++ steps := by simp
    rw [hlower] at hdir ⊢
    refine .enter (hsteps step List.mem_cons_self) (hdir _ (List.prefix_append _ _)) ?_
    exact ih _ (fun s hs => hsteps s (List.mem_cons_of_mem _ hs)) hdir

/-- A look that ends at a directory found a way to it. -/
theorem walk_way (h : walk t .look links loc steps slash = .ok (.found dest .directory)) :
    ∃ left, Way t links loc steps left dest ∧ t.node? dest = some .directory := by
  fun_induction walk t .look links loc steps slash with
  | case1 links loc slash node hn =>
    cases h
    exact ⟨links, .done links dest, hn⟩
  | case3 links loc slash rest ih =>
    obtain ⟨left, hway, hdest⟩ := ih h
    exact ⟨left, .here hway, hdest⟩
  | case4 links loc slash rest hne ih =>
    obtain ⟨left, hway, hdest⟩ := ih h
    exact ⟨left, .up hway, hdest⟩
  | case9 links loc slash step rest h1 h2 isLast next h3 h4 hn ih =>
    obtain ⟨left, hway, hdest⟩ := ih h
    exact ⟨left, .enter ⟨h1, h2, h4⟩ hn hway, hdest⟩
  | case12 loc slash step rest h1 h2 isLast next h3 h4 target hn hlast links path ih =>
    obtain ⟨left, hway, hdest⟩ := ih h
    exact ⟨left, .link ⟨h1, h2, h4⟩ hn hway, hdest⟩
  | case13 links loc slash step rest h1 h2 isLast next h3 h4 node hd hl hn hlast =>
    simp only [Except.ok.injEq, Place.found.injEq] at h
    exact absurd h.2 hd
  | _ => simp at h

theorem Way.look (h : Way t links loc steps left dest) (hdest : t.node? dest = some .directory)
    (slash : Bool) : walk t .look links loc steps slash = .ok (.found dest .directory) := by
  induction h generalizing slash with
  | done links loc => rw [walk, hdest]
  | here _ ih =>
    rw [walk, if_pos rfl]
    exact ih hdest slash
  | up _ ih =>
    rw [walk, if_neg (by decide), if_pos rfl]
    exact ih hdest slash
  | enter hstep hn _ ih =>
    rw [walk_directory (hstep.enters .look (by simp [Purpose.refusesSlash])) hn]
    exact ih hdest slash
  | link hstep hn _ ih =>
    rw [walk_link_followed (hstep.enters .look (by simp [Purpose.refusesSlash])) hn
      (by simp [Purpose.followsLast])]
    exact ih hdest _

theorem Way.walk (h : Way t links loc steps left dest) (hmore : more ≠ []) (purpose : Purpose)
    (slash : Bool) :
    walk t purpose links loc (steps ++ more) slash = walk t purpose left dest more slash := by
  have hnotLast : ∀ rest : List String, (rest ++ more).isEmpty = false := by
    intro rest
    simp [hmore]
  induction h with
  | done links loc => rfl
  | here _ ih =>
    rw [List.cons_append, FileTree.walk, if_pos rfl]
    exact ih
  | up _ ih =>
    rw [List.cons_append, FileTree.walk, if_neg (by decide), if_pos rfl]
    exact ih
  | enter hstep hn _ ih =>
    rw [List.cons_append, walk_directory (hstep.enters purpose (by simp [hnotLast])) hn]
    exact ih
  | link hstep hn _ ih =>
    rw [List.cons_append, walk_link_followed (hstep.enters purpose (by simp [hnotLast])) hn
      (by simp [hnotLast]), ← List.append_assoc]
    simp only [hnotLast]
    exact ih

theorem Way.split {tail : List String} (h : Way t links loc (steps ++ tail) left dest) :
    ∃ middle spot, Way t links loc steps middle spot ∧ Way t middle spot tail left dest := by
  generalize hall : steps ++ tail = all at h
  induction h generalizing steps with
  | done links loc =>
    obtain ⟨rfl, rfl⟩ := List.append_eq_nil_iff.mp hall
    exact ⟨links, loc, .done links loc, .done links loc⟩
  | @here links left loc dest rest h ih =>
    rcases List.append_eq_cons_iff.mp hall with ⟨rfl, rfl⟩ | ⟨steps, rfl, hrest⟩
    · exact ⟨links, loc, .done links loc, .here h⟩
    · obtain ⟨middle, spot, hway, htail⟩ := ih hrest.symm
      exact ⟨middle, spot, .here hway, htail⟩
  | @up links left loc dest rest h ih =>
    rcases List.append_eq_cons_iff.mp hall with ⟨rfl, rfl⟩ | ⟨steps, rfl, hrest⟩
    · exact ⟨links, loc, .done links loc, .up h⟩
    · obtain ⟨middle, spot, hway, htail⟩ := ih hrest.symm
      exact ⟨middle, spot, .up hway, htail⟩
  | @enter links left loc dest step rest hstep hn h ih =>
    rcases List.append_eq_cons_iff.mp hall with ⟨rfl, rfl⟩ | ⟨steps, rfl, hrest⟩
    · exact ⟨links, loc, .done links loc, .enter hstep hn h⟩
    · obtain ⟨middle, spot, hway, htail⟩ := ih hrest.symm
      exact ⟨middle, spot, .enter hstep hn hway, htail⟩
  | @link links left loc dest step target rest hstep hn h ih =>
    rcases List.append_eq_cons_iff.mp hall with ⟨rfl, rfl⟩ | ⟨steps, rfl, hrest⟩
    · exact ⟨links + 1, loc, .done (links + 1) loc, .link hstep hn h⟩
    · obtain ⟨middle, spot, hway, htail⟩ := ih (by rw [List.append_assoc, hrest])
      exact ⟨middle, spot, .link hstep hn hway, htail⟩

theorem Way.dots {dots : List String} (h : Way t links loc dots left dest)
    (hdots : ∀ step ∈ dots, step = ".") : left = links ∧ dest = loc := by
  induction h with
  | done links loc => exact ⟨rfl, rfl⟩
  | here _ ih => exact ih fun step hstep => hdots step (List.mem_cons_of_mem _ hstep)
  | up => exact absurd (hdots ".." List.mem_cons_self) (by decide)
  | enter hstep => exact absurd (hdots _ List.mem_cons_self) hstep.notHere
  | link hstep => exact absurd (hdots _ List.mem_cons_self) hstep.notHere

theorem Way.without_dots {dots : List String} (h : Way t links loc (steps ++ dots) left dest)
    (hdots : ∀ step ∈ dots, step = ".") : Way t links loc steps left dest := by
  obtain ⟨middle, spot, hway, htail⟩ := h.split
  obtain ⟨rfl, rfl⟩ := htail.dots hdots
  exact hway

end Ways

end LineShell.FileTree
