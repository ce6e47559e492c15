import LineShell.Proofs.Children
import LineShell.Proofs.Dropping

/-!
# What one file leaves alone

Making, opening and writing one file changes the node at its place and nothing
else in the tree, and the event log writes to its own file only. What is written
at the end of a file is added to it.
-/

set_option autoImplicit false

namespace LineShell

namespace FileTree

theorem Paves.put {t : FileTree} {loc : Location} (node : Node)
    (h : ∀ old, t.node? loc = some old → old.IsLeaf) : t.Paves (t.put loc node) := by
  constructor
  · intro other hother
    rw [node?_put_ne, hother]
    rintro rfl
    exact (h _ hother).notDirectory rfl
  · intro other target hother
    rw [node?_put_ne, hother]
    rintro rfl
    exact (h _ hother).notLink target rfl

/-- The trees are the same but for these places, and where they differ the second
has a file and the first had a leaf at most. -/
def Touches (spots : Location → Prop) (t u : FileTree) : Prop :=
  ∀ loc, u.node? loc = t.node? loc ∨
    spots loc ∧ (∀ node, t.node? loc = some node → node.IsLeaf) ∧
      ∃ content mode, u.node? loc = some (.file content mode)

namespace Touches

variable {spots more : Location → Prop} {t u v : FileTree} {loc : Location}

theorem refl (spots : Location → Prop) (t : FileTree) : Touches spots t t := fun _ => .inl rfl

theorem trans (h : Touches spots t u) (h' : Touches spots u v) : Touches spots t v := by
  intro loc
  rcases h loc with hsame | ⟨hspot, hleaf, content, mode, hfile⟩
  · rw [← hsame]
    exact h' loc
  · refine .inr ⟨hspot, hleaf, ?_⟩
    rcases h' loc with hlast | ⟨-, -, hlast⟩
    · exact ⟨content, mode, hlast.trans hfile⟩
    · exact hlast

theorem mono (h : Touches spots t u) (hmore : ∀ loc, spots loc → more loc) : Touches more t u :=
  fun loc => (h loc).imp_right fun ⟨hspot, hrest⟩ => ⟨hmore loc hspot, hrest⟩

theorem kept (h : Touches spots t u) (hspot : ¬ spots loc) : u.node? loc = t.node? loc :=
  (h loc).resolve_right fun htouched => hspot htouched.1

theorem paves (h : Touches spots t u) : t.Paves u := by
  constructor
  · intro loc hloc
    rcases h loc with hsame | ⟨-, hleaf, -⟩
    · exact hsame.trans hloc
    · exact absurd rfl (hleaf _ hloc).notDirectory
  · intro loc target hloc
    rcases h loc with hsame | ⟨-, hleaf, -⟩
    · exact hsame.trans hloc
    · exact absurd rfl ((hleaf _ hloc).notLink target)

theorem put (h : ∀ node, t.node? loc = some node → node.IsLeaf) (content : Bytes) (mode : Nat) :
    Touches (· = loc) t (t.put loc (.file content mode)) := by
  intro other
  by_cases hother : other = loc
  · subst hother
    have hne : other ≠ [] := by
      rintro rfl
      exact (h _ rfl).notDirectory rfl
    exact .inr ⟨rfl, h, content, mode, node?_put_self hne⟩
  · exact .inl (node?_put_ne hother)

end Touches

/-- What is in the file at a place, if there is one, and its mode. -/
inductive Holds (t : FileTree) (spot : Location) : Option Bytes → Nat → Prop
  | free (h : t.node? spot = none) : Holds t spot none newFileMode
  | file {content : Bytes} {mode : Nat} (h : t.node? spot = some (.file content mode)) :
      Holds t spot (some content) mode
  | program {p : Program} (h : t.node? spot = some (.program p)) :
      Holds t spot (some p.source) programMode

namespace Holds

variable {spot : Location} {t u : FileTree} {content : Option Bytes} {mode : Nat}

theorem congr (h : Holds t spot content mode) (hu : u.node? spot = t.node? spot) :
    Holds u spot content mode := by
  cases h with
  | free h => exact .free (hu.trans h)
  | file h => exact .file (hu.trans h)
  | program h => exact .program (hu.trans h)

theorem isLeaf (h : Holds t spot content mode) (node : Node) (hn : t.node? spot = some node) :
    node.IsLeaf := by
  cases h with
  | free h => simp [h] at hn
  | file h =>
    cases h.symm.trans hn
    exact ⟨nofun, nofun⟩
  | program h =>
    cases h.symm.trans hn
    exact ⟨nofun, nofun⟩

theorem used {bs : Bytes} (h : Holds t spot (some bs) mode) :
    ∃ node, t.node? spot = some node ∧ node.IsLeaf := by
  cases h with
  | file h => exact ⟨_, h, nofun, nofun⟩
  | program h => exact ⟨_, h, nofun, nofun⟩

theorem node {bs : Bytes} (h : Holds t spot (some bs) mode) (hmode : mode ≠ programMode) :
    t.node? spot = some (.file bs mode) := by
  cases h with
  | file h => exact h
  | program h => exact absurd rfl hmode

theorem ne_root (h : Holds t spot content mode) : spot ≠ [] := by
  rintro rfl
  cases h with
  | free h | file h | program h => cases h

theorem unique {content' : Option Bytes} {mode' : Nat} (h : t.Holds spot content mode)
    (h' : t.Holds spot content' mode') : content' = content ∧ mode' = mode := by
  cases h <;> cases h' <;> simp_all

theorem kept {bs : Bytes} (h : t.Holds spot (some bs) mode) (hx : t.Extends u) :
    u.Holds spot (some bs) mode := by
  cases h with
  | file hn => exact .file (hx.kept _ _ hn)
  | program hn => exact .program (hx.kept _ _ hn)

theorem put_node (h : t.Holds spot content mode) (bs : Bytes) (mode' : Nat) :
    (t.put spot (.file bs mode')).node? spot = some (.file bs mode') :=
  node?_put_self h.ne_root

theorem changed {spots : Location → Prop} {before after : Bytes} {mode' : Nat}
    (h : t.Holds spot (some before) mode) (h' : u.Holds spot (some after) mode')
    (hne : after ≠ before) (hu : Touches spots t u) : u.node? spot = some (.file after mode') := by
  rcases hu spot with hsame | ⟨-, -, content, fileMode, hfile⟩
  · exact absurd (Option.some.inj ((h.congr hsame).unique h').1) hne
  · obtain ⟨hcontent, hmode⟩ := (Holds.file hfile).unique h'
    cases hcontent
    cases hmode
    exact hfile

end Holds

end FileTree

def Handle.AtEnd (h : Handle) (content : Bytes) : Prop :=
  h.atEnd = true ∨ h.offset = content.length

theorem Handle.AtEnd.advance {h : Handle} {content : Bytes} (hend : h.AtEnd content) (bs : Bytes) :
    (h.advance bs.length).AtEnd (content ++ bs) := by
  by_cases hatEnd : h.atEnd = true
  · exact .inl ((h.atEnd_advance _).trans hatEnd)
  · refine .inr ?_
    rw [Handle.advance, if_neg hatEnd, List.length_append, ← hend.resolve_left hatEnd]

namespace FileTree

theorem overwrite_end (content bs : Bytes) :
    overwrite content content.length bs = content ++ bs := by
  simp [overwrite]

theorem write_end {t : FileTree} {h : Handle} {content : Bytes} {mode : Nat}
    (hn : t.Holds h.loc (some content) mode) (hend : h.AtEnd content) (bs : Bytes) :
    ∃ u k, t.write h bs = .ok (u, k) ∧ k.loc = h.loc ∧ k.atEnd = h.atEnd ∧
      k.AtEnd (content ++ bs) ∧ u.Holds h.loc (some (content ++ bs)) mode ∧
      Touches (· = h.loc) t u := by
  cases bs with
  | nil =>
    rw [List.append_nil]
    exact ⟨t, h, rfl, rfl, rfl, hend, hn, .refl _ _⟩
  | cons b bs =>
    have hoffset : (if h.atEnd then content.length else h.offset) = content.length := by
      rcases hend with hatEnd | hoffset
      · rw [if_pos hatEnd]
      · rw [hoffset, ite_self]
    refine ⟨t.put h.loc (.file (content ++ b :: bs) mode), h.advance (b :: bs).length, ?_,
      h.loc_advance _, h.atEnd_advance _, hend.advance _, .file (hn.put_node _ _),
      .put hn.isLeaf _ _⟩
    unfold write
    cases hn with
    | file hn =>
      simp only [List.isEmpty_cons, Bool.false_eq_true, if_false, hn, hoffset, overwrite_end]
    | program hn =>
      simp only [List.isEmpty_cons, Bool.false_eq_true, if_false, hn, hoffset, overwrite_end]

theorem ne_root_of_isLeaf {t : FileTree} {loc : Location} {node : Node}
    (hn : t.node? loc = some node) (hleaf : node.IsLeaf) : loc ≠ [] := by
  rintro rfl
  cases hn
  exact hleaf.notDirectory rfl

/-- A write changes nothing, or it fills the file at its place, which keeps its mode. -/
theorem write_cases {t u : FileTree} {h k : Handle} {bs : Bytes} (hw : t.write h bs = .ok (u, k)) :
    k.loc = h.loc ∧ (u = t ∨ ∃ old content mode, t.node? h.loc = some old ∧ old.IsLeaf ∧
      (old.isRunnable = true → (Node.file content mode).isRunnable = true) ∧
      u = t.put h.loc (.file content mode)) := by
  unfold write at hw
  dsimp only at hw
  split at hw
  · cases hw
    exact ⟨rfl, .inl rfl⟩
  split at hw
  · rename_i hn
    cases hw
    refine ⟨h.loc_advance _, .inr ⟨_, _, _, hn, ⟨nofun, nofun⟩, ?_, rfl⟩⟩
    exact id
  · rename_i hn
    cases hw
    refine ⟨h.loc_advance _, .inr ⟨_, _, _, hn, ⟨nofun, nofun⟩, ?_, rfl⟩⟩
    exact fun _ => rfl
  · cases hw
  · cases hw
    exact ⟨rfl, .inl rfl⟩

theorem write_touches {t u : FileTree} {h k : Handle} {bs : Bytes}
    (hw : t.write h bs = .ok (u, k)) : Touches (· = h.loc) t u := by
  obtain ⟨-, rfl | ⟨old, content, mode, hold, hleaf, -, rfl⟩⟩ := write_cases hw
  · exact .refl _ _
  · refine .put (fun node hnode => ?_) content mode
    cases hold.symm.trans hnode
    exact hleaf

section Opening

variable {t : FileTree} {start loc : Location} {base : Path} {name : String}
  {content : Option Bytes} {mode : Nat}

theorem openForWriting_child (h : t.look start base = .ok (loc, .directory))
    (hname : FileName name) (hshort : (base.join name).text.utf8ByteSize < pathLimit)
    (hn : t.Holds (loc ++ [name]) content mode) (atEnd : Bool) :
    ∃ opened, t.openForWriting start atEnd (base.join name) =
        .ok (opened, ⟨loc ++ [name], 0, atEnd⟩) ∧
      opened.Holds (loc ++ [name]) (some (if atEnd then content.getD [] else [])) mode ∧
      Touches (· = loc ++ [name]) t opened := by
  have hspot : loc ++ [name] ≠ [] := by simp
  have hleaf := hn.isLeaf
  cases hn with
  | free hn =>
    rw [openForWriting, follow_unused h hname hshort .makeFile hn]
    refine ⟨_, rfl, ?_, .put hleaf _ _⟩
    rw [Option.getD_none, ite_self]
    exact .file (node?_put_self hspot)
  | file hn =>
    rw [openForWriting, follow_used h hname hshort .makeFile hn ⟨nofun, nofun⟩]
    cases atEnd with
    | true => exact ⟨t, rfl, .file hn, .refl _ _⟩
    | false => exact ⟨_, rfl, .file (node?_put_self hspot), .put hleaf _ _⟩
  | program hn =>
    rw [openForWriting, follow_used h hname hshort .makeFile hn ⟨nofun, nofun⟩]
    cases atEnd with
    | true => exact ⟨t, rfl, .program hn, .refl _ _⟩
    | false => exact ⟨_, rfl, .file (node?_put_self hspot), .put hleaf _ _⟩

theorem create_child (h : t.look start base = .ok (loc, .directory))
    (hname : FileName name) (hshort : (base.join name).text.utf8ByteSize < pathLimit)
    (hn : t.Holds (loc ++ [name]) content mode) :
    t.create start (base.join name) =
      match content with
      | none => .ok (t.put (loc ++ [name]) (.file [] newFileMode))
      | some _ => .error .alreadyExists := by
  cases content with
  | none =>
    cases hn with
    | free hn => rw [create, follow_unused h hname hshort .makeNewFile hn]
  | some bs =>
    obtain ⟨node, hn, hleaf⟩ := hn.used
    rw [create, follow_used h hname hshort .makeNewFile hn hleaf]

end Opening

end FileTree

namespace Redirect

theorem resolveIn_child {t : FileTree} {start loc : Location} {base : Path} {name : String}
    {content : Option Bytes} {mode : Nat} (h : t.look start base = .ok (loc, .directory))
    (hname : FileName name)
    (hshort : (base.join name).text.utf8ByteSize < FileTree.pathLimit)
    (hn : t.Holds (loc ++ [name]) content mode) (k : Kind) :
    ∃ made notices, resolveIn start base k name t = ⟨.ok ⟨base.join name, k.mode⟩, made, notices⟩ ∧
      made.Holds (loc ++ [name])
        (if k.mode = .append then content else some (content.getD [])) mode ∧
      FileTree.Touches (· = loc ++ [name]) t made := by
  have hparent := FileTree.isDirectory_parent h hname
  unfold Redirect.LacksParent at hparent
  have hcreate := FileTree.create_child h hname hshort hn
  have hleaf := hn.isLeaf
  unfold resolveIn
  rw [if_neg hname.nonempty]
  dsimp only
  rw [if_neg hparent]
  cases k.mode with
  | append => exact ⟨t, [], rfl, hn, .refl _ _⟩
  | truncate =>
    cases content with
    | none =>
      simp only [hcreate]
      cases hn with
      | free hn =>
        exact ⟨_, _, rfl, .file (FileTree.node?_put_self (by simp)), .put hleaf _ _⟩
    | some bs =>
      simp only [hcreate]
      exact ⟨t, [], rfl, hn, .refl _ _⟩

theorem resolveIn_long {t : FileTree} {start loc : Location} {base : Path} {name : String}
    {k : Kind} (h : t.look start base = .ok (loc, .directory)) (hname : FileName name)
    (hlong : FileTree.pathLimit ≤ (base.join name).text.utf8ByteSize) (hk : k.mode = .truncate) :
    resolveIn start base k name t =
      ⟨.error (.createFailed (base.join name) .nameTooLong), t, []⟩ := by
  have hparent := FileTree.isDirectory_parent h hname
  unfold Redirect.LacksParent at hparent
  obtain ⟨hbase, -⟩ := FileTree.look_way h
  have hempty : (base.join name).text ≠ "" := by
    intro hempty
    rw [hempty] at hlong
    exact absurd hlong (by decide)
  have hcreate : t.create start (base.join name) = .error .nameTooLong := by
    rw [FileTree.create, FileTree.follow,
      if_neg (Path.join_noNul hbase.nonempty hname hbase.noNul), if_neg hempty, if_pos hlong]
  unfold resolveIn
  rw [if_neg hname.nonempty]
  dsimp only
  rw [if_neg hparent, hk]
  simp only [hcreate]

end Redirect

/-! ## Hosts -/

namespace Host

structure Logs (h : Host) (place : Location) (threshold : Level) (logged : Bytes) (mode : Nat) :
    Prop where
  file : ∃ handle, h.journal.file = some (handle, threshold) ∧ handle.loc = place ∧
    handle.atEnd = true
  held : h.tree.Holds place (some logged) mode

theorem Logs.logPlace {h : Host} {place : Location} {threshold : Level} {logged : Bytes}
    {mode : Nat} (hl : h.Logs place threshold logged mode) : h.logPlace? = some place := by
  obtain ⟨handle, hfile, hplace, -⟩ := hl.file
  rw [logPlace?, hfile, ← hplace]
  rfl

theorem logLine_nonempty (clock : String) (n : Notice) : Utf8.ofString (logLine clock n) ≠ [] :=
  Utf8.ofString_line_ne_nil _

theorem Logs.note {h : Host} {place : Location} {threshold : Level} {logged : Bytes} {mode : Nat}
    (hl : h.Logs place threshold logged mode) (n : Notice) :
    (h.note n).Logs place threshold
      (logged ++
        if threshold.admits n.level then Utf8.ofString (logLine h.journal.clock n) else [])
      mode := by
  obtain ⟨⟨handle, hfile, rfl, hatEnd⟩, hnode⟩ := hl
  unfold Host.note
  simp only [hfile]
  by_cases hlevel : threshold.admits n.level = true
  · obtain ⟨u, k, hwrite, hloc, hend, -, hu, -⟩ :=
      FileTree.write_end hnode (.inl hatEnd) (Utf8.ofString (logLine h.journal.clock n))
    simp only [hlevel, if_true, hwrite]
    exact ⟨⟨k, rfl, hloc, hend.trans hatEnd⟩, hu⟩
  · simp only [if_neg hlevel, List.append_nil]
    exact ⟨⟨handle, rfl, rfl, hatEnd⟩, hnode⟩

/-- The second host has the outputs of the first and, but for one place, its
tree. The log may have grown. -/
structure Spares (spot : Location) (h k : Host) : Prop where
  start : k.start = h.start
  stdout : k.stdout = h.stdout
  stderr : k.stderr = h.stderr
  logPlace : k.logPlace? = h.logPlace?
  log : ∀ place threshold logged mode, place ≠ spot → h.Logs place threshold logged mode →
    ∃ more, k.Logs place threshold (logged ++ more) mode
  paves : h.tree.Paves k.tree
  node : ∀ loc, loc ≠ spot → loc ∉ h.logPlace? → k.tree.node? loc = h.tree.node? loc

namespace Spares

variable {spot : Location} {g h k : Host}

theorem tree {u : FileTree}
    (hu : FileTree.Touches (· = spot) h.tree u) :
    Spares spot h { h with tree := u } where
  start := rfl
  stdout := rfl
  stderr := rfl
  logPlace := rfl
  log place threshold logged mode hplace hlogs := by
    refine ⟨[], hlogs.file, ?_⟩
    rw [List.append_nil]
    exact hlogs.held.congr (hu.kept hplace)
  paves := hu.paves
  node loc hloc _ := hu.kept hloc

theorem refl (spot : Location) (h : Host) : Spares spot h h where
  start := rfl
  stdout := rfl
  stderr := rfl
  logPlace := rfl
  log place threshold logged mode _ hlogs := ⟨[], by simpa using hlogs⟩
  paves := .refl _
  node _ _ _ := rfl

theorem trans (h₁ : Spares spot g h) (h₂ : Spares spot h k) : Spares spot g k where
  start := h₂.start.trans h₁.start
  stdout := h₂.stdout.trans h₁.stdout
  stderr := h₂.stderr.trans h₁.stderr
  logPlace := h₂.logPlace.trans h₁.logPlace
  log place threshold logged mode hplace hlogs := by
    obtain ⟨more, hmore⟩ := h₁.log place threshold logged mode hplace hlogs
    obtain ⟨yet, hyet⟩ := h₂.log place threshold _ mode hplace hmore
    exact ⟨more ++ yet, by rwa [← List.append_assoc]⟩
  paves := h₁.paves.trans h₂.paves
  node loc hspot hlog := by
    rw [h₂.node loc hspot (h₁.logPlace ▸ hlog)]
    exact h₁.node loc hspot hlog

end Spares

theorem note_touches (h : Host) (n : Notice) :
    FileTree.Touches (· ∈ h.logPlace?) h.tree (h.note n).tree := by
  unfold note
  dsimp only
  split
  · exact .refl _ _
  rename_i handle threshold hfile
  split
  · split
    · rename_i hwrite
      refine (FileTree.write_touches hwrite).mono ?_
      rintro loc rfl
      rw [logPlace?, hfile]
      rfl
    · exact .refl _ _
  · exact .refl _ _

theorem note_spares (h : Host) (n : Notice) (spot : Location) : Spares spot h (h.note n) where
  start := h.note_start n
  stdout := h.note_stdout n
  stderr := h.stderr_note n
  logPlace := h.logPlace?_note n
  log _ _ _ _ _ hlogs := ⟨_, hlogs.note n⟩
  paves := (h.note_touches n).paves
  node _ _ hlog := (h.note_touches n).kept hlog

theorem noteAll_spares (h : Host) (ns : List Notice) (spot : Location) :
    Spares spot h (h.noteAll ns) := by
  induction ns generalizing h with
  | nil => exact .refl spot h
  | cons n ns ih => exact (h.note_spares n spot).trans (ih (h.note n))

theorem noteAll_node (h : Host) (ns : List Notice) {loc : Location} (hlog : loc ∉ h.logPlace?) :
    (h.noteAll ns).tree.node? loc = h.tree.node? loc := by
  induction ns generalizing h with
  | nil => rfl
  | cons n ns ih =>
    exact (ih (h.note n) (h.logPlace?_note n ▸ hlog)).trans ((h.note_touches n).kept hlog)

end Host

end LineShell
