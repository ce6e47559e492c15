import LineShell.Proofs.Sparing

/-!
# Places where something is written

Opening a file for writing and writing to it touch one place: there is a file
then, where a leaf or nothing was. Nothing that is touched is on the way to
anything else, so a path that was opened leads to its place from then on.
-/

set_option autoImplicit false

namespace LineShell

def Place.loc : Place → Location
  | .found loc _ => loc
  | .vacant loc => loc

namespace FileTree

/-! ## Where a path leads -/

section Walks

variable {t u : FileTree} {purpose : Purpose} {links : Nat} {start loc : Location}
  {steps : List String} {slash : Bool} {place : Place} {node : Node} {p : Path}

/-- A walk to a file, or to where a file is made, leads there as long as the ways
last and no other than a leaf comes to stand there. -/
theorem walk_look (hu : t.Paves u) (hpurpose : purpose.refusesSlash = true)
    (h : walk t purpose links loc steps slash = .ok place) (hn : u.node? place.loc = some node)
    (hnode : node.IsLeaf ∨ place = .found place.loc node ∧ purpose.followsLast = true) :
    walk u .look links loc steps slash = .ok (.found place.loc node) := by
  -- the steps are those of the first walk; only at the last one the nodes may differ
  fun_induction walk t purpose links loc steps slash with
  | case1 links loc slash old hold =>
    cases h
    rw [walk, show u.node? loc = some node from hn]
    rfl
  | case3 links loc slash rest ih =>
    rw [walk, if_pos rfl]
    exact ih h
  | case4 links loc slash rest hne ih =>
    rw [walk, if_neg hne, if_pos rfl]
    exact ih h
  | case7 links loc slash step rest h1 h2 isLast next h3 h4 hnone hlast =>
    cases h
    have hleaf := hnode.resolve_right fun hfound => by cases hfound.1
    have hslash : slash = false := by simpa [isLast, hlast, hpurpose] using h3
    rw [walk_leaf ⟨h1, h2, by simp [Purpose.refusesSlash], h4⟩ hn hleaf.notDirectory hleaf.notLink,
      if_pos (by simp [isLast, hlast, hslash])]
    rfl
  | case9 links loc slash step rest h1 h2 isLast next h3 h4 hdir ih =>
    rw [walk_directory ⟨h1, h2, by simp [Purpose.refusesSlash], h4⟩ (hu.directory _ hdir)]
    exact ih h
  | case10 links loc slash step rest h1 h2 isLast next h3 h4 target hlink hlast =>
    cases h
    have hkept : u.node? next = some (.link target) := hu.link _ _ hlink
    cases hkept.symm.trans hn
    rcases hnode with hleaf | ⟨-, hfollows⟩
    · exact absurd rfl (hleaf.notLink target)
    · simp [hfollows] at hlast
  | case12 loc slash step rest h1 h2 isLast next h3 h4 target hlink hlast links path ih =>
    rw [walk_link_followed ⟨h1, h2, by simp [Purpose.refusesSlash], h4⟩ (hu.link _ _ hlink)
      (by simp [Purpose.followsLast])]
    exact ih h
  | case13 links loc slash step rest h1 h2 isLast next h3 h4 old hd hl hold hlast =>
    cases h
    have hleaf : node.IsLeaf := by
      rcases hnode with hleaf | ⟨hsame, -⟩
      · exact hleaf
      · cases hsame
        exact ⟨hd, hl⟩
    have hrest : rest.isEmpty = true := by
      simp only [Bool.and_eq_true] at hlast
      exact hlast.1
    have hslash : slash = false := by simpa [isLast, hrest, hpurpose] using h3
    rw [walk_leaf ⟨h1, h2, by simp [Purpose.refusesSlash], h4⟩ hn hleaf.notDirectory hleaf.notLink,
      if_pos (by simp [hrest, hslash])]
    rfl
  | _ => cases h

theorem follow_look (hu : t.Paves u) (hpurpose : purpose.refusesSlash = true)
    (h : t.follow start purpose p = .ok place) (hn : u.node? place.loc = some node)
    (hnode : node.IsLeaf ∨ place = .found place.loc node ∧ purpose.followsLast = true) :
    u.look start p = .ok (place.loc, node) := by
  rcases follow_walks start p with ⟨e, -, hf⟩ | hf
  · rw [hf] at h
    cases h
  · rw [hf] at h
    rw [look, hf, walk_look hu hpurpose h hn hnode]

end Walks

/-! ## Opening a file -/

section Opening

variable {t u v : FileTree} {start : Location} {atEnd : Bool} {p : Path} {k : Handle}
  {content content' : Option Bytes} {mode mode' : Nat}

theorem openForWriting_cases (h : t.openForWriting start atEnd p = .ok (u, k)) :
    ∃ place, t.follow start .makeFile p = .ok place ∧ k = ⟨place.loc, 0, atEnd⟩ ∧
      ((∃ content mode, t.Holds place.loc content mode ∧
          u = if atEnd && content.isSome then t else t.put place.loc (.file [] mode)) ∨
        u = t ∧ (∃ node, place = .found place.loc node) ∧
          ∀ content mode, ¬ t.Holds place.loc content mode) := by
  unfold openForWriting at h
  split at h
  · cases h
  · rename_i loc hfollow
    cases h
    have hfree := Holds.free (follow_vacant hfollow)
    exact ⟨.vacant loc, hfollow, rfl, .inl ⟨none, _, hfree, by simp [Place.loc]⟩⟩
  · rename_i loc node hfollow
    have hnode := follow_found hfollow
    refine ⟨.found loc node, hfollow, ?_⟩
    split at h
    · cases h
    · cases h
      exact ⟨rfl, .inl ⟨_, _, .file hnode, by simp [Place.loc]⟩⟩
    · cases h
      exact ⟨rfl, .inl ⟨_, _, .program hnode, by simp [Place.loc]⟩⟩
    · rename_i target
      cases h
      refine ⟨rfl, .inr ⟨rfl, ⟨_, rfl⟩, fun content mode hheld => ?_⟩⟩
      exact (hheld.isLeaf _ hnode).notLink target rfl
    · rename_i device
      cases h
      refine ⟨rfl, .inr ⟨rfl, ⟨_, rfl⟩, fun content mode hheld => ?_⟩⟩
      cases hheld with
      | free hn | file hn | program hn => cases hnode.symm.trans hn

theorem openForWriting_touches (h : t.openForWriting start atEnd p = .ok (u, k)) :
    Touches (· = k.loc) t u ∧ k.offset = 0 ∧ k.atEnd = atEnd := by
  obtain ⟨place, -, rfl, ⟨content, mode, hheld, rfl⟩ | ⟨rfl, -, -⟩⟩ := openForWriting_cases h
  · refine ⟨?_, rfl, rfl⟩
    split
    · exact .refl _ t
    · exact .put hheld.isLeaf [] mode
  · exact ⟨.refl _ u, rfl, rfl⟩

theorem openForWriting_holds (h : t.openForWriting start atEnd p = .ok (u, k))
    (hheld : t.Holds k.loc content mode) :
    u.Holds k.loc (some (if atEnd then content.getD [] else [])) mode := by
  obtain ⟨place, -, rfl, ⟨content', mode', hheld', rfl⟩ | ⟨-, -, hnone⟩⟩ := openForWriting_cases h
  · obtain ⟨rfl, rfl⟩ := hheld.unique hheld'
    have hmade : (t.put place.loc (.file [] mode')).Holds place.loc (some []) mode' :=
      .file (hheld.put_node _ _)
    cases atEnd with
    | false => exact hmade
    | true =>
      cases content' with
      | none => exact hmade
      | some content => exact hheld
  · exact absurd hheld (hnone content mode)

theorem openForWriting_look (h : t.openForWriting start atEnd p = .ok (u, k))
    {spots : Location → Prop} (hv : Touches spots u v) :
    ∃ node, v.look start p = .ok (k.loc, node) := by
  have hpaves := (openForWriting_touches h).1.paves.trans hv.paves
  obtain ⟨place, hfollow, rfl, hopened⟩ := openForWriting_cases h
  suffices hn : ∃ node, v.node? place.loc = some node ∧
      (node.IsLeaf ∨ place = .found place.loc node ∧ Purpose.makeFile.followsLast = true) by
    obtain ⟨node, hn, hnode⟩ := hn
    exact ⟨node, follow_look hpaves rfl hfollow hn hnode⟩
  rcases hv place.loc with hsame | ⟨-, -, content, mode, hfile⟩
  · rcases hopened with ⟨content, mode, hheld, -⟩ | ⟨rfl, ⟨node, hfound⟩, -⟩
    · obtain ⟨node, hnode, hleaf⟩ := (openForWriting_holds h hheld).used
      exact ⟨node, hsame.trans hnode, .inl hleaf⟩
    · rw [hfound] at hfollow
      exact ⟨node, hsame.trans (follow_found hfollow), .inr ⟨hfound, rfl⟩⟩
  · exact ⟨_, hfile, .inl ⟨nofun, nofun⟩⟩

end Opening

end FileTree

/-! ## Logging -/

namespace Host

/-- Nothing but notices and messages stands between the hosts: the log may have grown, and
standard error. -/
structure Noted (h k : Host) : Prop where
  tree : FileTree.Touches (· ∈ h.logPlace?) h.tree k.tree
  logPlace : k.logPlace? = h.logPlace?
  start : k.start = h.start
  stdout : k.stdout = h.stdout
  logs : ∀ place threshold logged mode, h.Logs place threshold logged mode →
    ∃ more, k.Logs place threshold (logged ++ more) mode

namespace Noted

variable {g h k : Host}

theorem of_stderr (h : Host) (stderr : Stderr) : h.Noted { h with stderr } where
  tree := .refl _ _
  logPlace := rfl
  start := rfl
  stdout := rfl
  logs _ _ _ _ hl := ⟨[], hl.file, by simpa using hl.held⟩

theorem refl (h : Host) : h.Noted h := of_stderr h h.stderr

theorem trans (h₁ : g.Noted h) (h₂ : h.Noted k) : g.Noted k where
  tree := h₁.tree.trans (h₁.logPlace ▸ h₂.tree)
  logPlace := h₂.logPlace.trans h₁.logPlace
  start := h₂.start.trans h₁.start
  stdout := h₂.stdout.trans h₁.stdout
  logs place threshold logged mode hl := by
    obtain ⟨more, hmore⟩ := h₁.logs place threshold logged mode hl
    obtain ⟨yet, hyet⟩ := h₂.logs place threshold _ mode hmore
    exact ⟨more ++ yet, by rwa [← List.append_assoc]⟩

end Noted

theorem note_noted (h : Host) (n : Notice) : h.Noted (h.note n) where
  tree := h.note_touches n
  logPlace := h.logPlace?_note n
  start := h.note_start n
  stdout := h.note_stdout n
  logs _ _ _ _ hl := ⟨_, hl.note n⟩

theorem noteAll_noted (h : Host) (ns : List Notice) : h.Noted (h.noteAll ns) := by
  induction ns generalizing h with
  | nil => exact .refl h
  | cons n ns ih => exact (h.note_noted n).trans (ih (h.note n))

theorem complainAll_noted (h : Host) (errors : List Redirect.Error) :
    h.Noted (h.complainAll errors) := by
  obtain ⟨taken, hall, -⟩ := h.complainAll_eq errors
  rw [hall]
  exact .of_stderr h _

end Host

end LineShell
