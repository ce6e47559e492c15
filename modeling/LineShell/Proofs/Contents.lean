import LineShell.Proofs.Jobs
import LineShell.Proofs.Parsing

/-!
# What one file holds

Trees may differ in what one file holds, such as the log. A path leads to the same
place in both, the same files can be made and opened, and what is written keeps
them alike. Only a program that copies that file can tell them apart.
-/

set_option autoImplicit false

namespace LineShell

namespace Node

def fileMode? : Node → Option Nat
  | file _ mode => some mode
  | program _ => some FileTree.programMode
  | _ => none

/-- Two files of one mode. -/
def Kin (m n : Node) : Prop := ∃ mode, m.fileMode? = some mode ∧ n.fileMode? = some mode

namespace Kin

variable {m n k : Node}

theorem symm (h : m.Kin n) : n.Kin m := by
  obtain ⟨mode, hm, hn⟩ := h
  exact ⟨mode, hn, hm⟩

theorem trans (h : m.Kin n) (h' : n.Kin k) : m.Kin k := by
  obtain ⟨mode, hm, hn⟩ := h
  obtain ⟨mode', hn', hk⟩ := h'
  cases hn.symm.trans hn'
  exact ⟨mode, hm, hk⟩

theorem notDirectory (h : m.Kin n) : m ≠ .directory := by
  rintro rfl
  obtain ⟨_, hm, -⟩ := h
  cases hm

theorem notLink (h : m.Kin n) (target : String) : m ≠ .link target := by
  rintro rfl
  obtain ⟨_, hm, -⟩ := h
  cases hm

end Kin

theorem isRunnable_of_fileMode? {n : Node} {mode : Nat} (h : n.fileMode? = some mode) :
    n.isRunnable = decide (mode &&& executeBits ≠ 0) := by
  cases n <;> cases h
  · rfl
  · rfl

theorem Kin.isRunnable {m n : Node} (h : m.Kin n) : n.isRunnable = m.isRunnable := by
  obtain ⟨mode, hm, hn⟩ := h
  rw [isRunnable_of_fileMode? hm, isRunnable_of_fileMode? hn]

end Node

namespace FileTree

/-- The trees are the same. If a place is given, its file may hold something else in
the second. -/
def SameBut : Option Location → FileTree → FileTree → Prop
  | none, t, u => u = t
  | some place, t, u => ∀ loc, u.node? loc = t.node? loc ∨
      loc = place ∧ ∃ m n, t.node? loc = some m ∧ u.node? loc = some n ∧ m.Kin n

namespace SameBut

variable {log : Option Location} {t u v : FileTree} {loc : Location} {m n : Node}

theorem refl (log : Option Location) (t : FileTree) : SameBut log t t := by
  cases log with
  | none => rfl
  | some place => exact fun _ => .inl rfl

theorem node (h : SameBut log t u) (loc : Location) : u.node? loc = t.node? loc ∨
    loc ∈ log ∧ ∃ m n, t.node? loc = some m ∧ u.node? loc = some n ∧ m.Kin n := by
  cases log with
  | none => exact .inl (congrArg (·.node? loc) h)
  | some place => exact (h loc).imp_right fun ⟨hplace, hkin⟩ => ⟨congrArg some hplace.symm, hkin⟩

theorem symm (h : SameBut log t u) : SameBut log u t := by
  cases log with
  | none => exact Eq.symm h
  | some place =>
    intro loc
    rcases h loc with hsame | ⟨hplace, m, n, hm, hn, hkin⟩
    · exact .inl hsame.symm
    · exact .inr ⟨hplace, n, m, hn, hm, hkin.symm⟩

theorem trans (h : SameBut log t u) (h' : SameBut log u v) : SameBut log t v := by
  cases log with
  | none => exact Eq.trans h' h
  | some place =>
    intro loc
    rcases h loc with hsame | ⟨hplace, m, n, hm, hn, hkin⟩
    · rw [← hsame]
      exact h' loc
    rcases h' loc with hsame' | ⟨-, n', k, hn', hk, hkin'⟩
    · exact .inr ⟨hplace, m, n, hm, hsame'.trans hn, hkin⟩
    · cases hn.symm.trans hn'
      exact .inr ⟨hplace, m, k, hm, hk, hkin.trans hkin'⟩

theorem vacant (h : SameBut log t u) (hn : t.node? loc = none) : u.node? loc = none := by
  rcases h.node loc with hsame | ⟨-, m, n, hm, -, -⟩
  · exact hsame.trans hn
  · cases hn.symm.trans hm

theorem kept (h : SameBut log t u) (hn : t.node? loc = some n) (hfile : n.fileMode? = none) :
    u.node? loc = some n := by
  rcases h.node loc with hsame | ⟨-, m, _, hm, -, _, hmode, -⟩
  · exact hsame.trans hn
  · cases hn.symm.trans hm
    cases hfile.symm.trans hmode

theorem used (h : SameBut log t u) (hn : t.node? loc = some m) :
    ∃ n, u.node? loc = some n ∧ (n = m ∨ loc ∈ log ∧ m.Kin n) := by
  rcases h.node loc with hsame | ⟨hlog, m', n, hm, hn', hkin⟩
  · exact ⟨m, hsame.trans hn, .inl rfl⟩
  · cases hn.symm.trans hm
    exact ⟨n, hn', .inr ⟨hlog, hkin⟩⟩

theorem put (h : SameBut log t u) (loc : Location) (n : Node) :
    SameBut log (t.put loc n) (u.put loc n) := by
  cases log with
  | none => exact congrArg (·.put loc n) h
  | some place =>
    intro other
    by_cases hroot : other = []
    · subst hroot
      exact .inl rfl
    by_cases hother : other = loc
    · subst hother
      rw [node?_put_self hroot, node?_put_self hroot]
      exact .inl rfl
    · rw [node?_put_ne hother, node?_put_ne hother]
      exact h other

theorem put_kin (h : SameBut log t u) (hloc : loc ∈ log) (hm : t.node? loc = some m)
    (hkin : m.Kin n) : SameBut log t (u.put loc n) := by
  cases hloc
  intro other
  have hroot : loc ≠ [] := by
    rintro rfl
    cases hm
    exact hkin.notDirectory rfl
  by_cases hother : other = loc
  · subst hother
    exact .inr ⟨rfl, m, n, hm, node?_put_self hroot, hkin⟩
  · rw [node?_put_ne hother]
    exact h other

end SameBut

/-! ## Paths -/

/-- Both walks end alike, at most on that file. -/
inductive Meets (log : Option Location) : Except OsError Place → Except OsError Place → Prop
  | same (reached : Except OsError Place) : Meets log reached reached
  | kin {loc : Location} {m n : Node} (mem : loc ∈ log) (kin : m.Kin n) :
      Meets log (.ok (.found loc m)) (.ok (.found loc n))

section Paths

variable {log : Option Location} {t u : FileTree} {start : Location} {p : Path}

theorem SameBut.walk (h : SameBut log t u) (purpose : Purpose) (links : Nat) (loc : Location)
    (steps : List String) (slash : Bool) :
    Meets log (t.walk purpose links loc steps slash) (u.walk purpose links loc steps slash) := by
  -- directories and links are the same in both, so the file that may differ ends the walk
  fun_induction FileTree.walk t purpose links loc steps slash with
  | case1 links loc slash node hn =>
    obtain ⟨node', hn', hsame⟩ := h.used hn
    rw [FileTree.walk, hn']
    rcases hsame with rfl | ⟨hlog, hkin⟩
    · exact .same _
    · exact .kin hlog hkin
  | case2 links loc slash hn =>
    rw [FileTree.walk, h.vacant hn]
    exact .same _
  | case3 links loc slash rest ih =>
    rw [FileTree.walk, if_pos rfl]
    exact ih
  | case4 links loc slash rest hne ih =>
    rw [FileTree.walk, if_neg hne, if_pos rfl]
    exact ih
  | case5 links loc slash step rest h1 h2 isLast h3 =>
    rw [FileTree.walk, if_neg h1, if_neg h2, if_pos h3]
    exact .same _
  | case6 links loc slash step rest h1 h2 isLast h3 h4 =>
    rw [FileTree.walk, if_neg h1, if_neg h2, if_neg h3, if_pos h4]
    exact .same _
  | case7 links loc slash step rest h1 h2 isLast next h3 h4 hn hlast =>
    rw [walk_unused ⟨h1, h2, h3, h4⟩ (h.vacant hn), if_pos hlast]
    exact .same _
  | case8 links loc slash step rest h1 h2 isLast next h3 h4 hn hlast =>
    rw [walk_unused ⟨h1, h2, h3, h4⟩ (h.vacant hn), if_neg hlast]
    exact .same _
  | case9 links loc slash step rest h1 h2 isLast next h3 h4 hn ih =>
    rw [walk_directory ⟨h1, h2, h3, h4⟩ (h.kept hn rfl)]
    exact ih
  | case10 links loc slash step rest h1 h2 isLast next h3 h4 target hn hlast =>
    rw [walk_link_kept ⟨h1, h2, h3, h4⟩ (h.kept hn rfl) hlast]
    exact .same _
  | case11 loc slash step rest h1 h2 isLast next h3 h4 target hn hlast =>
    rw [walk_link_refused ⟨h1, h2, h3, h4⟩ (h.kept hn rfl) hlast]
    exact .same _
  | case12 loc slash step rest h1 h2 isLast next h3 h4 target hn hlast links path ih =>
    rw [walk_link_followed ⟨h1, h2, h3, h4⟩ (h.kept hn rfl) hlast]
    exact ih
  | case13 links loc slash step rest h1 h2 isLast next h3 h4 node hd hl hn hlast =>
    obtain ⟨node', hn', rfl | ⟨hlog, hkin⟩⟩ := h.used hn
    · rw [walk_leaf ⟨h1, h2, h3, h4⟩ hn' hd hl, if_pos hlast]
      exact .same _
    · rw [walk_leaf ⟨h1, h2, h3, h4⟩ hn' hkin.symm.notDirectory hkin.symm.notLink, if_pos hlast]
      exact .kin hlog hkin
  | case14 links loc slash step rest h1 h2 isLast next h3 h4 node hd hl hn hlast =>
    obtain ⟨node', hn', rfl | ⟨hlog, hkin⟩⟩ := h.used hn
    · rw [walk_leaf ⟨h1, h2, h3, h4⟩ hn' hd hl, if_neg hlast]
      exact .same _
    · rw [walk_leaf ⟨h1, h2, h3, h4⟩ hn' hkin.symm.notDirectory hkin.symm.notLink, if_neg hlast]
      exact .same _

theorem SameBut.follow (h : SameBut log t u) (start : Location) (purpose : Purpose) (p : Path) :
    Meets log (t.follow start purpose p) (u.follow start purpose p) := by
  rcases follow_walks start p with ⟨e, -, hf⟩ | hf
  · rw [hf t, hf u]
    exact .same _
  · rw [hf t, hf u]
    exact h.walk _ _ _ _ _

theorem SameBut.look (h : SameBut log t u) (start : Location) (p : Path) :
    u.look start p = t.look start p ∨ ∃ loc ∈ log, ∃ m n, m.Kin n ∧
      t.look start p = .ok (loc, m) ∧ u.look start p = .ok (loc, n) := by
  have hfollow := h.follow start .look p
  unfold FileTree.look
  generalize t.follow start .look p = reached at hfollow ⊢
  generalize u.follow start .look p = reached' at hfollow ⊢
  cases hfollow with
  | same => exact .inl rfl
  | kin hlog hkin => exact .inr ⟨_, hlog, _, _, hkin, rfl, rfl⟩

/-- A path leads to the same place, whatever is there in the other tree. -/
theorem SameBut.look_node (h : SameBut log t u) {loc : Location} {m n : Node}
    (ht : t.look start p = .ok (loc, m)) (hn : u.node? loc = some n) :
    u.look start p = .ok (loc, n) := by
  have hplace {k : Node} (hu : u.look start p = .ok (loc, k)) : n = k := by
    unfold FileTree.look at hu
    split at hu
    · rename_i hfollow
      cases hu
      exact Option.some.inj (hn.symm.trans (follow_found hfollow))
    · cases hu
    · cases hu
  rcases h.look start p with hsame | ⟨loc', -, m', n', -, ht', hu⟩
  · have hu := hsame.trans ht
    rw [hplace hu, hu]
  · cases ht'.symm.trans ht
    rw [hplace hu, hu]

theorem SameBut.isThere (h : SameBut log t u) : u.isThere start p = t.isThere start p := by
  unfold FileTree.isThere
  rcases h.look start p with hsame | ⟨loc, -, m, n, -, ht, hu⟩
  · rw [hsame]
  · rw [ht, hu]
    rfl

theorem SameBut.isDirectory (h : SameBut log t u) :
    u.isDirectory start p = t.isDirectory start p := by
  have hfile {loc : Location} {m n : Node} {v : FileTree} (hv : v.look start p = .ok (loc, m))
      (hkin : m.Kin n) : v.isDirectory start p = false := by
    unfold FileTree.isDirectory
    rw [hv]
    cases m with
    | directory => exact absurd rfl hkin.notDirectory
    | file | program | link | device => rfl
  rcases h.look start p with hsame | ⟨loc, -, m, n, hkin, ht, hu⟩
  · unfold FileTree.isDirectory
    rw [hsame]
  · rw [hfile ht hkin, hfile hu hkin.symm]

theorem SameBut.isExecutable (h : SameBut log t u) (start : Location) :
    u.isExecutable start = t.isExecutable start := by
  funext p
  unfold FileTree.isExecutable
  rcases h.look start p with hsame | ⟨loc, -, m, n, hkin, ht, hu⟩
  · rw [hsame]
  · rw [ht, hu]
    exact hkin.isRunnable

end Paths

/-! ## Making, opening and writing files -/

section Files

variable {log : Option Location} {t u : FileTree} {start : Location} {p : Path}

/-- Both trees stay as they are, or the same new file is made in both. -/
def Makes (t u t' u' : FileTree) : Prop :=
  t' = t ∧ u' = u ∨ ∃ spot, t.node? spot = none ∧
    t' = t.put spot (.file [] newFileMode) ∧ u' = u.put spot (.file [] newFileMode)

theorem SameBut.makes {t' u' : FileTree} (h : SameBut log t u) (hmakes : Makes t u t' u') :
    SameBut log t' u' := by
  obtain ⟨rfl, rfl⟩ | ⟨spot, -, rfl, rfl⟩ := hmakes
  · exact h
  · exact h.put spot _

theorem SameBut.create (h : SameBut log t u) (start : Location) (p : Path) :
    (∃ e, t.create start p = .error e ∧ u.create start p = .error e) ∨
      ∃ t' u', t.create start p = .ok t' ∧ u.create start p = .ok u' ∧ Makes t u t' u' := by
  have hfollow := h.follow start .makeNewFile p
  unfold FileTree.create
  generalize hreached : t.follow start .makeNewFile p = reached at hfollow ⊢
  generalize u.follow start .makeNewFile p = reached' at hfollow ⊢
  cases hfollow with
  | same =>
    rcases reached with e | ⟨loc, node⟩ | loc
    · exact .inl ⟨e, rfl, rfl⟩
    · exact .inl ⟨_, rfl, rfl⟩
    · exact .inr ⟨_, _, rfl, rfl, .inr ⟨loc, follow_vacant hreached, rfl, rfl⟩⟩
  | kin hlog hkin => exact .inl ⟨_, rfl, rfl⟩

theorem openForWriting_file {atEnd : Bool} {loc : Location} {node : Node} {mode : Nat}
    (hfollow : t.follow start .makeFile p = .ok (.found loc node))
    (hmode : node.fileMode? = some mode) :
    t.openForWriting start atEnd p =
      .ok (if atEnd then t else t.put loc (.file [] mode), ⟨loc, 0, atEnd⟩) := by
  unfold FileTree.openForWriting
  rw [hfollow]
  cases node <;> cases hmode <;> rfl

theorem SameBut.openForWriting (h : SameBut log t u) (start : Location) (atEnd : Bool) (p : Path) :
    (∃ e, t.openForWriting start atEnd p = .error e ∧ u.openForWriting start atEnd p = .error e) ∨
      ∃ t' u' k, t.openForWriting start atEnd p = .ok (t', k) ∧
        u.openForWriting start atEnd p = .ok (u', k) ∧ SameBut log t' u' := by
  have hfollow := h.follow start .makeFile p
  have hemptied (loc : Location) (mode : Nat) :
      SameBut log (if atEnd then t else t.put loc (.file [] mode))
        (if atEnd then u else u.put loc (.file [] mode)) := by
    cases atEnd with
    | true => exact h
    | false => exact h.put loc _
  generalize ht : t.follow start .makeFile p = reached at hfollow
  generalize hu : u.follow start .makeFile p = reached' at hfollow
  cases hfollow with
  | kin hlog hkin =>
    obtain ⟨mode, hm, hn⟩ := hkin
    exact .inr ⟨_, _, _, openForWriting_file ht hm, openForWriting_file hu hn, hemptied _ mode⟩
  | same =>
    unfold FileTree.openForWriting
    rw [ht, hu]
    rcases reached with e | ⟨loc, node⟩ | loc
    · exact .inl ⟨e, rfl, rfl⟩
    · cases node with
      | directory => exact .inl ⟨_, rfl, rfl⟩
      | file content mode => exact .inr ⟨_, _, _, rfl, rfl, hemptied loc mode⟩
      | program p => exact .inr ⟨_, _, _, rfl, rfl, hemptied loc _⟩
      | link target => exact .inr ⟨_, _, _, rfl, rfl, h⟩
      | device d => exact .inr ⟨_, _, _, rfl, rfl, h⟩
    · exact .inr ⟨_, _, _, rfl, rfl, h.put loc _⟩

theorem write_file {k : Handle} {node : Node} {mode : Nat} {bs : Bytes} (hbs : bs ≠ [])
    (hn : t.node? k.loc = some node) (hmode : node.fileMode? = some mode) :
    ∃ content, t.write k bs = .ok (t.put k.loc (.file content mode), k.advance bs.length) := by
  unfold FileTree.write
  dsimp only
  rw [if_neg (by simpa using hbs), hn]
  cases node <;> cases hmode
  · exact ⟨_, rfl⟩
  · exact ⟨_, rfl⟩

theorem SameBut.write (h : SameBut log t u) (k : Handle) (bs : Bytes) :
    (∃ e, t.write k bs = .error e ∧ u.write k bs = .error e) ∨
      ∃ t' u' next, t.write k bs = .ok (t', next) ∧ u.write k bs = .ok (u', next) ∧
        SameBut log t' u' := by
  by_cases hbs : bs = []
  · subst hbs
    exact .inr ⟨t, u, k, rfl, rfl, h⟩
  rcases h.node k.loc with hsame | ⟨hlog, m, n, hm, hn, hkin⟩
  · unfold FileTree.write
    dsimp only
    have hne : ¬ bs.isEmpty = true := by simpa using hbs
    rw [if_neg hne, if_neg hne, hsame]
    cases t.node? k.loc with
    | none => exact .inr ⟨t, u, k, rfl, rfl, h⟩
    | some node =>
      cases node with
      | file content mode => exact .inr ⟨_, _, _, rfl, rfl, h.put _ _⟩
      | program p => exact .inr ⟨_, _, _, rfl, rfl, h.put _ _⟩
      | directory | link target => exact .inr ⟨t, u, k, rfl, rfl, h⟩
      | device d =>
        cases d with
        | sink => exact .inr ⟨t, u, k, rfl, rfl, h⟩
        | full => exact .inl ⟨_, rfl, rfl⟩
  · obtain ⟨mode, hmode, hmode'⟩ := hkin
    obtain ⟨content, ht⟩ := write_file hbs hm hmode
    obtain ⟨content', hu⟩ := write_file hbs hn hmode'
    have hleft : SameBut log u (t.put k.loc (.file content mode)) :=
      h.symm.put_kin hlog hn ⟨mode, hmode', rfl⟩
    have hnode : (t.put k.loc (.file content mode)).node? k.loc = some (.file content mode) := by
      refine node?_put_self fun hroot => ?_
      rw [hroot] at hm
      cases hm
      cases hmode
    exact .inr ⟨_, _, _, ht, hu, hleft.symm.put_kin hlog hnode ⟨mode, rfl, rfl⟩⟩

theorem write_sameBut {k next : Handle} {bs : Bytes} (hw : t.write k bs = .ok (u, next))
    (hlog : k.loc ∈ log) : SameBut log t u ∧ next.loc = k.loc := by
  by_cases hbs : bs = []
  · subst hbs
    cases hw
    exact ⟨.refl _ _, rfl⟩
  cases hn : t.node? k.loc with
  | none =>
    unfold FileTree.write at hw
    dsimp only at hw
    rw [if_neg (by simpa using hbs), hn] at hw
    cases hw
    exact ⟨.refl _ _, rfl⟩
  | some node =>
    cases hmode : node.fileMode? with
    | some mode =>
      obtain ⟨content, hput⟩ := write_file hbs hn hmode
      cases hput.symm.trans hw
      exact ⟨(SameBut.refl log t).put_kin hlog hn ⟨mode, hmode, rfl⟩, k.loc_advance _⟩
    | none =>
      unfold FileTree.write at hw
      dsimp only at hw
      rw [if_neg (by simpa using hbs), hn] at hw
      cases node with
      | file | program => cases hmode
      | directory | link target =>
        cases hw
        exact ⟨.refl _ _, rfl⟩
      | device d =>
        cases d <;> cases hw
        exact ⟨.refl _ _, rfl⟩

end Files

end FileTree

/-! ## Lines -/

section Lines

variable {log : Option Location} {t u : FileTree}

theorem Redirect.resolveIn_sameBut (h : t.SameBut log u) (start : Location) (base : Path) (k : Kind)
    (word : String) :
    let answer := resolveIn start base k word t
    let answer' := resolveIn start base k word u
    answer'.result = answer.result ∧ answer'.notices = answer.notices ∧
      t.Makes u answer.state answer'.state := by
  have hnothing : t.Makes u t u := .inl ⟨rfl, rfl⟩
  unfold resolveIn
  split
  · exact ⟨rfl, rfl, hnothing⟩
  dsimp only
  simp only [h.isDirectory]
  split
  · exact ⟨rfl, rfl, hnothing⟩
  cases k.mode with
  | append => exact ⟨rfl, rfl, hnothing⟩
  | truncate =>
    dsimp only
    obtain ⟨e, ht, hu⟩ | ⟨t', u', ht, hu, hmade⟩ := h.create start (base.join word)
    · rw [ht, hu]
      cases e with
      | alreadyExists => exact ⟨rfl, rfl, hnothing⟩
      | _ => exact ⟨rfl, rfl, hnothing⟩
    · rw [ht, hu]
      exact ⟨rfl, rfl, hmade⟩

structure Resolved.SameBut (log : Option Location) (r r' : Resolved FileTree) : Prop where
  texts : r'.texts = r.texts
  redirects : r'.redirects = r.redirects
  errors : r'.errors = r.errors
  notices : r'.notices = r.notices
  state : r.state.SameBut log r'.state

namespace Resolved

variable {r r' : Resolved FileTree}

theorem SameBut.command? (h : r.SameBut log r') : r'.command? = r.command? := by
  rw [Resolved.command?, Resolved.command?, h.texts, h.redirects]

theorem SameBut.step_makes (h : r.SameBut log r') (start : Location) (base : Path) (w : Word) :
    r.state.Makes r'.state (step (Redirect.resolveIn start base) r w).state
      (step (Redirect.resolveIn start base) r' w).state := by
  cases w with
  | arg text => exact .inl ⟨rfl, rfl⟩
  | redirect operator kind target =>
    by_cases ht : target = ""
    · subst ht
      rw [step_missing, step_missing]
      exact .inl ⟨rfl, rfl⟩
    · rw [step_state ht, step_state ht]
      exact (Redirect.resolveIn_sameBut h.state start base kind target).2.2

theorem SameBut.step (h : r.SameBut log r') (start : Location) (base : Path) (w : Word) :
    (step (Redirect.resolveIn start base) r w).SameBut log
      (step (Redirect.resolveIn start base) r' w) := by
  have hstate := h.state.makes (h.step_makes start base w)
  obtain ⟨texts, redirects, errors, notices, state⟩ := r
  obtain ⟨_, _, _, _, state'⟩ := r'
  obtain ⟨rfl, rfl, rfl, rfl, hsame⟩ := h
  cases w with
  | arg text => exact ⟨rfl, rfl, rfl, rfl, hsame⟩
  | redirect operator kind target =>
    by_cases ht : target = ""
    · subst ht
      rw [step_missing, step_missing]
      exact ⟨rfl, rfl, rfl, rfl, hsame⟩
    obtain ⟨hresult, hnotices, -⟩ := Redirect.resolveIn_sameBut hsame start base kind target
    cases hanswer : (Redirect.resolveIn start base kind target state).result with
    | ok found =>
      rw [step_ok ht hanswer, step_ok ht (hresult.trans hanswer)] at hstate ⊢
      exact ⟨rfl, rfl, rfl, congrArg (_ ++ ·) hnotices, hstate⟩
    | error e =>
      rw [step_error ht hanswer, step_error ht (hresult.trans hanswer)] at hstate ⊢
      exact ⟨rfl, rfl, rfl, congrArg (_ ++ · ++ _) hnotices, hstate⟩

theorem SameBut.run (h : r.SameBut log r') (start : Location) (base : Path) (words : List Word) :
    (words.foldl (Resolved.step (Redirect.resolveIn start base)) r).SameBut log
      (words.foldl (Resolved.step (Redirect.resolveIn start base)) r') := by
  induction words generalizing r r' with
  | nil => exact h
  | cons w words ih => exact ih (h.step start base w)

theorem ofLine_sameBut (h : t.SameBut log u) (start : Location) (base : Path) (line : String) :
    (ofLine (Redirect.resolveIn start base) t line).SameBut log
      (ofLine (Redirect.resolveIn start base) u line) := by
  have hstart : (Resolved.start t).SameBut log (Resolved.start u) := ⟨rfl, rfl, rfl, rfl, h⟩
  exact hstart.run start base (splitWords line)

end Resolved

namespace Streams

variable (start : Location)

theorem openInput_sameBut (h : t.SameBut log u) (target? : Option Redirect.Target) :
    openInput u start target? = openInput t start target? := by
  cases target? with
  | none => rfl
  | some target =>
    unfold openInput
    dsimp only
    rcases h.look start target.path with hsame | ⟨loc, -, m, n, -, ht, hu⟩
    · rw [hsame]
    · rw [ht, hu]

theorem openOutput_sameBut (h : t.SameBut log u) (target? : Option Redirect.Target) :
    (∃ e, openOutput t start target? = .error e ∧ openOutput u start target? = .error e) ∨
      ∃ t' u' k, openOutput t start target? = .ok (t', k) ∧ openOutput u start target? = .ok (u', k) ∧
        t'.SameBut log u' := by
  cases target? with
  | none => exact .inr ⟨t, u, none, rfl, rfl, h⟩
  | some target =>
    unfold openOutput
    dsimp only
    obtain ⟨e, ht, hu⟩ | ⟨t', u', k, ht, hu, hopened⟩ :=
      h.openForWriting start (target.mode = .append) target.path
    · rw [ht, hu]
      exact .inl ⟨_, rfl, rfl⟩
    · rw [ht, hu]
      exact .inr ⟨t', u', some k, rfl, rfl, hopened⟩

theorem ofTable_sameBut (h : t.SameBut log u) (table : Redirect.Table) :
    (ofTable u start table).1 = (ofTable t start table).1 ∧
      (ofTable t start table).2.SameBut log (ofTable u start table).2 := by
  unfold ofTable
  rw [openInput_sameBut start h]
  cases openInput t start (table .stdinRead) with
  | error e => exact ⟨rfl, h⟩
  | ok stdin =>
    dsimp only
    obtain ⟨e, ht, hu⟩ | ⟨t', u', stdout, ht, hu, hout⟩ :=
      openOutput_sameBut start h (table.effective .stdoutWrite .stdoutAppend)
    · rw [ht, hu]
      exact ⟨rfl, h⟩
    rw [ht, hu]
    dsimp only
    obtain ⟨e, ht, hu⟩ | ⟨t'', u'', stderr, ht, hu, herr⟩ :=
      openOutput_sameBut start hout (table.effective .stderrWrite .stderrAppend)
    · rw [ht, hu]
      exact ⟨rfl, hout⟩
    · rw [ht, hu]
      exact ⟨rfl, herr⟩

end Streams

/-! ## Commands -/

theorem SearchPath.find?_sameBut (h : t.SameBut log u) (p : SearchPath) (start : Location)
    (name : String) : p.find? u start name = p.find? t start name := by
  rw [find?, find?, h.isExecutable]

theorem Session.locate_sameBut (h : t.SameBut log u) (s : Session) (start : Location)
    (name : String) : s.locate u start name = s.locate t start name := by
  rw [locate, locate, h.isExecutable, SearchPath.find?_sameBut h]

theorem Builtin.run_sameBut (h : t.SameBut log u) (b : Builtin) (s : Session) (start : Location)
    (args : List String) : b.run s u start args = b.run s t start args := by
  cases b with
  | echo | exit | pwd => rfl
  | cd =>
    show runCd s u start args = runCd s t start args
    simp only [runCd, h.isThere, h.isDirectory]
  | type =>
    show runType s u start args = runType s t start args
    have hdescribe : describe s u start = describe s t start := by
      funext name
      rw [describe, describe, SearchPath.find?_sameBut h]
    rw [runType, runType, hdescribe]

namespace Launch

variable {dir : Location} {writing : List Location} {args : List String}

/-- A file that is open for writing is not run, so it makes no difference what it holds. -/
theorem program_sameBut (h : t.SameBut log u) {depth : Nat} {path : Path}
    (hopen : ∀ loc ∈ log, loc ∈ writing) :
    program u dir writing depth path args = program t dir writing depth path args := by
  induction depth generalizing path args with
  | zero =>
    rw [program, program]
    rcases h.look dir path with hsame | ⟨loc, hlog, m, n, hkin, ht, hu⟩
    · rw [hsame]
      rcases t.look dir path with e | ⟨loc, node⟩
      · rfl
      · cases node <;> rfl
    · simp [ht, hu, hkin.isRunnable, hopen loc hlog]
  | succ depth ih =>
    rw [program, program]
    rcases h.look dir path with hsame | ⟨loc, hlog, m, n, hkin, ht, hu⟩
    · rw [hsame]
      rcases t.look dir path with e | ⟨loc, node⟩
      · rfl
      cases node with
      | program p => cases depth <;> rfl
      | file content mode => simp only [ih]
      | directory | link target | device d => rfl
    · simp [ht, hu, hkin.isRunnable, hopen loc hlog]

theorem firstProgram_sameBut (h : t.SameBut log u) (hopen : ∀ loc ∈ log, loc ∈ writing)
    (paths : List Path) :
    firstProgram u dir writing args paths = firstProgram t dir writing args paths := by
  induction paths with
  | nil => rfl
  | cons path paths ih =>
    have hfirst : program u dir writing interpreterLimit path args =
        program t dir writing interpreterLimit path args := program_sameBut h hopen
    cases paths with
    | nil => exact hfirst
    | cons next paths =>
      rw [firstProgram, hfirst, ih]
      · rfl
      · simp

theorem directory_sameBut (h : t.SameBut log u) (start : Location) (cwd : Path) :
    directory u start cwd = directory t start cwd := by
  unfold directory
  rcases h.look start cwd with hsame | ⟨loc, -, m, n, hkin, ht, hu⟩
  · rw [hsame]
  · rw [ht, hu]
    have hm := hkin.notDirectory
    have hn := hkin.symm.notDirectory
    cases m <;> cases n <;> simp_all

theorem prepare_sameBut {h h' : Host} (htree : h.tree.SameBut log h'.tree)
    (hstart : h'.start = h.start) (hpath : h'.path = h.path) (hplace : h'.logPlace? = h.logPlace?)
    (howned : ∀ loc ∈ log, loc ∈ h.logPlace?) (streams : Streams) (s : Session) (path : Path)
    (args : List String) :
    prepare ⟨h', streams⟩ s path args = prepare ⟨h, streams⟩ s path args := by
  unfold prepare
  split
  · rfl
  simp only [hstart, hpath, directory_sameBut htree]
  cases hdir : directory h.tree h.start s.cwd with
  | error e => rfl
  | ok dir =>
    have hwriting : (⟨h', streams⟩ : Job).writing = (⟨h, streams⟩ : Job).writing := by
      rw [Job.writing, Job.writing, hplace]
    have hopen : ∀ loc ∈ log, loc ∈ (⟨h, streams⟩ : Job).writing := by
      intro loc hlog
      exact List.mem_append_right _ (Option.mem_toList.mpr (howned loc hlog))
    dsimp only
    rw [hwriting, firstProgram_sameBut htree hopen]

end Launch

end Lines

end LineShell
