import LineShell.Proofs.Lookup
import LineShell.Proofs.Meaning
import LineShell.Proofs.Parsing
import LineShell.Proofs.Sparing

/-!
# Offered names

A name that completion offers is that of a builtin or of an executable that the
search path leads to. Nothing that happens before a command is at work takes an
executable away: new files only come, and files that are emptied or written to
keep their modes. So a command with an offered name has something to run.
-/

set_option autoImplicit false

namespace LineShell

theorem Node.isLeaf_of_isRunnable {node : Node} (h : node.isRunnable = true) : node.IsLeaf := by
  constructor
  · rintro rfl
    cases h
  · rintro target rfl
    cases h

namespace FileTree

/-- The second tree has the ways of the first, and what can be run in the first
can be run in it. -/
structure Serves (t u : FileTree) : Prop where
  paves : t.Paves u
  runnable : ∀ loc node, t.node? loc = some node → node.isRunnable = true →
    ∃ kept, u.node? loc = some kept ∧ kept.isRunnable = true

namespace Serves

variable {t u v : FileTree} {loc : Location} {node : Node}

theorem refl (t : FileTree) : t.Serves t := ⟨.refl t, fun _ node hn hrun => ⟨node, hn, hrun⟩⟩

theorem trans (h : t.Serves u) (h' : u.Serves v) : t.Serves v := by
  refine ⟨h.paves.trans h'.paves, fun loc node hn hrun => ?_⟩
  obtain ⟨kept, hkept, hrun⟩ := h.runnable loc node hn hrun
  exact h'.runnable loc kept hkept hrun

theorem of_extends (h : t.Extends u) : t.Serves u where
  paves := ⟨fun loc => h.kept loc .directory, fun loc target => h.kept loc (.link target)⟩
  runnable loc node hn hrun := ⟨node, h.kept loc node hn, hrun⟩

theorem put (h : ∀ old, t.node? loc = some old →
    old.IsLeaf ∧ (old.isRunnable = true → node.isRunnable = true)) :
    t.Serves (t.put loc node) := by
  refine ⟨Paves.put node fun old hold => (h old hold).1, fun other old hold hrun => ?_⟩
  by_cases hother : other = loc
  · subst hother
    obtain ⟨hleaf, hkept⟩ := h old hold
    exact ⟨node, node?_put_self (ne_root_of_isLeaf hold hleaf), hkept hrun⟩
  · exact ⟨old, (node?_put_ne hother).trans hold, hrun⟩

theorem put_file {old : Node} {content : Bytes} {mode : Nat} (hold : t.node? loc = some old)
    (hleaf : old.IsLeaf)
    (hmode : old.isRunnable = true → (Node.file content mode).isRunnable = true) :
    t.Serves (t.put loc (.file content mode)) := by
  refine put fun node hn => ?_
  cases hold.symm.trans hn
  exact ⟨hleaf, hmode⟩

end Serves

section Walks

variable {t u : FileTree} {links : Nat} {start loc dest : Location} {steps : List String}
  {slash : Bool} {node : Node} {p : Path} {handle next : Handle} {bs : Bytes}

theorem walk_serves (hu : t.Serves u)
    (h : walk t .look links loc steps slash = .ok (.found dest node))
    (hrun : node.isRunnable = true) :
    ∃ kept, walk u .look links loc steps slash = .ok (.found dest kept) ∧
      kept.isRunnable = true := by
  -- every step of the walk is one in the other tree, and only a leaf can be run
  fun_induction walk t .look links loc steps slash with
  | case1 links loc slash node hn =>
    cases h
    obtain ⟨kept, hkept, hrun⟩ := hu.runnable _ _ hn hrun
    exact ⟨kept, by rw [walk, hkept], hrun⟩
  | case3 links loc slash rest ih =>
    rw [walk, if_pos rfl]
    exact ih h
  | case4 links loc slash rest hne ih =>
    rw [walk, if_neg hne, if_pos rfl]
    exact ih h
  | case9 links loc slash step rest h1 h2 isLast next h3 h4 hn ih =>
    rw [walk_directory ⟨h1, h2, h3, h4⟩ (hu.paves.directory _ hn)]
    exact ih h
  | case10 links loc slash step rest h1 h2 isLast next h3 h4 target hn hlast =>
    simp [Purpose.followsLast] at hlast
  | case12 loc slash step rest h1 h2 isLast next h3 h4 target hn hlast links path ih =>
    rw [walk_link_followed ⟨h1, h2, h3, h4⟩ (hu.paves.link _ _ hn) hlast]
    exact ih h
  | case13 links loc slash step rest h1 h2 isLast next h3 h4 node hd hl hn hlast =>
    simp only [Except.ok.injEq, Place.found.injEq] at h
    rw [← h.2] at hrun
    obtain ⟨kept, hkept, hrun⟩ := hu.runnable _ _ hn hrun
    have hleaf := Node.isLeaf_of_isRunnable hrun
    rw [walk_leaf ⟨h1, h2, h3, h4⟩ hkept hleaf.notDirectory hleaf.notLink, if_pos hlast, ← h.1]
    exact ⟨kept, rfl, hrun⟩
  | _ => cases h

theorem isExecutable_serves (hu : t.Serves u) (h : t.isExecutable start p = true) :
    u.isExecutable start p = true := by
  unfold isExecutable at h
  split at h
  · rename_i loc node hlook
    obtain ⟨hp, hwalk⟩ := look_walk hlook
    obtain ⟨kept, hkept, hrun⟩ := walk_serves hu hwalk h
    rw [isExecutable, look, hp.follow, hkept]
    exact hrun
  · cases h

theorem openForWriting_serves {atEnd : Bool}
    (h : t.openForWriting start atEnd p = .ok (u, handle)) : t.Serves u := by
  unfold openForWriting at h
  split at h
  · cases h
  · rename_i dest hfollow
    cases h
    exact .of_extends (.put (follow_vacant hfollow))
  · rename_i dest node hfollow
    have hnode := follow_found hfollow
    split at h
    · cases h
    · cases h
      split
      · exact .refl t
      · exact .put_file hnode ⟨nofun, nofun⟩ id
    · cases h
      split
      · exact .refl t
      · exact .put_file hnode ⟨nofun, nofun⟩ fun _ => rfl
    · cases h
      exact .refl t
    · cases h
      exact .refl t

theorem write_serves (h : t.write handle bs = .ok (u, next)) : t.Serves u := by
  obtain ⟨-, rfl | ⟨old, content, mode, hold, hleaf, hmode, rfl⟩⟩ := write_cases h
  · exact .refl u
  · exact .put_file hold hleaf hmode

end Walks

end FileTree

/-! ## What is offered -/

instance (name : String) : Decidable (Path.Part name) :=
  decidable_of_iff (name ≠ "" ∧ '/' ∉ name.toList)
    ⟨fun ⟨hempty, hslash⟩ => ⟨hempty, hslash⟩, fun h => ⟨h.nonempty, h.noSlash⟩⟩

namespace FileTree

def Spelled (t : FileTree) : Prop := ∀ e ∈ t.entries, ∀ step ∈ e.1, Path.Part step

instance (t : FileTree) : Decidable t.Spelled :=
  inferInstanceAs (Decidable (∀ e ∈ t.entries, ∀ step ∈ e.1, Path.Part step))

theorem Spelled.names {t : FileTree} {loc : Location} {name : String} (h : t.Spelled)
    (hname : name ∈ t.names loc) : Path.Part name := by
  obtain ⟨e, he, hlast⟩ := List.mem_filterMap.mp hname
  split at hlast
  · exact h e he name (List.mem_of_getLast? hlast)
  · cases hlast

theorem Spelled.listing {t : FileTree} {start : Location} {dir : Path} {name : String}
    (h : t.Spelled) (hname : name ∈ (t.listing start dir).getD []) : Path.Part name := by
  unfold FileTree.listing at hname
  split at hname
  · exact h.names hname
  · cases hname

end FileTree

namespace SearchPath

variable {p : SearchPath} {t u : FileTree} {start : Location} {name typed : String}
  {path dir : Path}

theorem find?_of_isExecutable (hname : Path.Part name) (hdir : dir ∈ p.dirs)
    (h : t.isExecutable start (dir.join name) = true) :
    ∃ path, p.find? t start name = some path ∧ t.isExecutable start path = true := by
  have hfound : ((p.dirs.map (·.join name)).find? (t.isExecutable start)).isSome := by
    rw [List.find?_isSome]
    exact ⟨_, List.mem_map_of_mem hdir, h⟩
  obtain ⟨path, hpath⟩ := Option.isSome_iff_exists.mp hfound
  refine ⟨path, ?_, List.find?_some hpath⟩
  rw [find?, if_neg (by simp [hname.nonempty, hname.noSlash])]
  exact hpath

theorem candidates_find? (ht : t.Spelled) (h : name ∈ p.candidates t start typed) :
    typed.toList <+: name.toList ∧
      ∃ path, p.find? t start name = some path ∧ t.isExecutable start path = true := by
  simp only [candidates, Names.mem_ofList, List.mem_flatMap, candidatesIn, List.mem_filter,
    Completion.startsWith, Bool.and_eq_true, List.isPrefixOf_iff_prefix] at h
  obtain ⟨dir, hdir, hlisted, htyped, hexecutable⟩ := h
  exact ⟨htyped, find?_of_isExecutable (ht.listing hlisted) hdir hexecutable⟩

theorem find?_serves (hu : t.Serves u) (h : p.find? t start name = some path) :
    ∃ path, p.find? u start name = some path ∧ u.isExecutable start path = true := by
  obtain ⟨hname, dir, hdir, rfl, hexecutable⟩ := find?_eq_some h
  exact find?_of_isExecutable hname hdir (FileTree.isExecutable_serves hu hexecutable)

end SearchPath

/-! ## Before a command is at work -/

theorem Streams.openOutput_serves {t u : FileTree} {start : Location}
    {target : Option Redirect.Target} {handle : Option Handle}
    (h : openOutput t start target = .ok (u, handle)) : t.Serves u := by
  unfold openOutput at h
  split at h
  · cases h
    exact .refl t
  · split at h
    · rename_i hopen
      cases h
      exact FileTree.openForWriting_serves hopen
    · cases h

theorem Streams.ofTable_serves {t u : FileTree} {start : Location} {table : Redirect.Table}
    {streams : Streams} (h : ofTable t start table = (.ok streams, u)) : t.Serves u := by
  unfold ofTable at h
  split at h
  · cases h
  split at h
  · cases h
  rename_i hout
  split at h
  · cases h
  rename_i herr
  cases h
  exact (openOutput_serves hout).trans (openOutput_serves herr)

/-- What a host may become before a command is at work: what could be run still can,
by the same path, and nothing is put out. -/
structure Host.Before (h k : Host) : Prop where
  tree : h.tree.Serves k.tree
  start : k.start = h.start
  stdout : k.stdout = h.stdout

namespace Host

variable {g h k : Host}

theorem Before.refl (h : Host) : h.Before h := ⟨.refl _, rfl, rfl⟩

theorem Before.trans (hh : g.Before h) (hk : h.Before k) : g.Before k :=
  ⟨hh.tree.trans hk.tree, hk.start.trans hh.start, hk.stdout.trans hh.stdout⟩

theorem note_before (h : Host) (n : Notice) : h.Before (h.note n) := by
  refine ⟨?_, h.note_start n, h.note_stdout n⟩
  unfold note
  dsimp only
  split
  · exact .refl _
  split
  · split
    · rename_i hwrite
      exact FileTree.write_serves hwrite
    · exact .refl _
  · exact .refl _

theorem noteAll_before (h : Host) (ns : List Notice) : h.Before (h.noteAll ns) := by
  induction ns generalizing h with
  | nil => exact .refl h
  | cons n ns ih => exact (h.note_before n).trans (ih (h.note n))

theorem complainAll_before (h : Host) (errors : List Redirect.Error) :
    h.Before (h.complainAll errors) := by
  induction errors generalizing h with
  | nil => exact .refl h
  | cons e errors ih =>
    have hfirst : h.Before (h.complain s!"keysh: {e.message}") := ⟨.refl _, rfl, rfl⟩
    exact hfirst.trans (ih _)

end Host

theorem Command.job_before {c : Command} {h : Host} {j : Job} (hjob : c.job? h = some j) :
    h.Before j.host := by
  unfold job? at hjob
  split at hjob
  · cases hjob
  · rename_i hopen
    cases hjob
    exact ⟨Streams.ofTable_serves hopen, rfl, rfl⟩

/-- A name with something to run still has it where a command is at work. -/
theorem Session.meaning_before {s : Session} {h k : Host} {name : String} (hk : h.Before k)
    (hname : name ∈ Builtin.names ∨ ∃ path, s.search.find? h.tree h.start name = some path) :
    s.meaning k.tree k.start name ≠ .nothing := by
  rcases hname with hbuiltin | ⟨path, hfound⟩
  · obtain ⟨b, -, rfl⟩ := List.mem_map.mp hbuiltin
    rw [meaning_of_ofName? (Builtin.ofName?_name b)]
    nofun
  · obtain ⟨found, hfound', -⟩ := SearchPath.find?_serves hk.tree hfound
    cases hbuiltin : Builtin.ofName? name with
    | some b =>
      rw [meaning_of_ofName? hbuiltin]
      nofun
    | none =>
      rw [hk.start, meaning_bare hbuiltin (SearchPath.find?_eq_some hfound).1.noSlash, hfound']
      nofun

namespace Shell

variable {sh : Shell} {line typed name : String} {c : Command} {j : Job}

theorem reported_before (sh : Shell) (line : String) :
    sh.host.Before (sh.reported (sh.reading line)) := by
  have hread : sh.host.Before { sh.host with tree := (sh.reading line).state } :=
    ⟨.of_extends (sh.reading_extends line), rfl, rfl⟩
  exact hread.trans ((Host.noteAll_before _ _).trans (Host.complainAll_before _ _))

theorem job_before (h : sh.job? line = some (c, j)) : sh.host.Before j.host := by
  obtain ⟨-, hjob⟩ := job?_eq_some h
  exact ((sh.reported_before line).trans (Host.note_before _ _)).trans (Command.job_before hjob)

theorem candidates_cases (ht : sh.host.tree.Spelled) (hname : name ∈ sh.candidates typed) :
    typed.toList <+: name.toList ∧
      (name ∈ Builtin.names ∨
        ∃ path, sh.session.search.find? sh.host.tree sh.host.start name = some path ∧
          sh.host.tree.isExecutable sh.host.start path = true) := by
  rcases List.mem_append.mp hname with hbuiltin | hprogram
  · obtain ⟨hmem, htyped⟩ := List.mem_filter.mp hbuiltin
    exact ⟨List.isPrefixOf_iff_prefix.mp htyped, .inl hmem⟩
  · split at hprogram
    · obtain ⟨htyped, hfound⟩ := SearchPath.candidates_find? ht hprogram
      exact ⟨htyped, .inr hfound⟩
    · cases hprogram

/-- A name that is offered goes on from what was typed and can be run: it is the
name of a builtin, or the search path leads to an executable. A command of that
name whose streams open in the same tree does not find nothing to run, and no
more does a line, which may make or empty files before. -/
theorem candidates_runnable (ht : sh.host.tree.Spelled) (hname : name ∈ sh.candidates typed) :
    typed.toList <+: name.toList ∧
    (name ∈ Builtin.names ∨
      ∃ path, sh.session.search.find? sh.host.tree sh.host.start name = some path ∧
        sh.host.tree.isExecutable sh.host.start path = true) ∧
    (∀ (c : Command) (s : Session) (h : Host) (j : Job), c.name = name →
      s.search = sh.session.search → h.tree = sh.host.tree → h.start = sh.host.start →
      c.job? h = some j →
      s.meaning j.host.tree j.host.start name ≠ .nothing ∧
        c.execute s h ≠ (.goOn notFoundStatus, s, c.reportMissing j)) ∧
    (∀ (line : String) (c : Command) (j : Job), sh.job? line = some (c, j) → c.name = name →
      sh.session.meaning j.host.tree j.host.start name ≠ .nothing ∧
        sh.runLine line ≠ (.goOn notFoundStatus, { sh with host := c.reportMissing j })) := by
  obtain ⟨htyped, hrunnable⟩ := candidates_cases ht hname
  have hfound := hrunnable.imp_right fun ⟨path, hpath, _⟩ => Exists.intro path hpath
  refine ⟨htyped, hrunnable, ?_, ?_⟩
  · rintro c s h j rfl hsearch htree hstart hjob
    rw [← hsearch, ← htree, ← hstart] at hfound
    have hmeaning := Session.meaning_before (Command.job_before hjob) hfound
    refine ⟨hmeaning, ?_⟩
    rw [c.execute_job s hjob]
    exact (c.act_nothing_iff s j _).not.mpr hmeaning
  · rintro line c j hjob rfl
    have hmeaning := Session.meaning_before (job_before hjob) hfound
    refine ⟨hmeaning, fun hline => (c.act_nothing_iff sh.session j _).not.mpr hmeaning ?_⟩
    rw [runLine_job hjob, Prod.mk.injEq, Shell.mk.injEq] at hline
    obtain ⟨hflow, -, -, hsession, hhost⟩ := hline
    exact Prod.ext hflow (Prod.ext hsession hhost)

/-- A link to a program, after a namesake that cannot be run. -/
theorem candidates_runnable_linked :
    let t : FileTree := ⟨[(["a"], .directory), (["a", "tool"], .file [] 0o644), (["b"], .directory),
      (["b", "tool"], .link "/c"), (["c"], .file [] 0o755)]⟩
    let s : Session := ⟨⟨"/"⟩, none, ⟨[⟨"/a"⟩, ⟨"/b"⟩]⟩⟩
    let h : Host := ⟨t, [], none, .opened false, .empty, ⟨[], none, ""⟩⟩
    let sh : Shell := ⟨"", true, s, h⟩
    let c : Command := ⟨"tool", [], .empty⟩
    t.Spelled ∧ "tool" ∈ sh.candidates "to" ∧ c.job? h = some ⟨h, ⟨none, none, none⟩⟩ ∧
      c.execute s h ≠ (.goOn notFoundStatus, s, c.reportMissing ⟨h, ⟨none, none, none⟩⟩) := by
  intro t s h sh c
  have hspelled : t.Spelled := by decide +kernel
  have hwalkable : FileTree.Walkable ⟨"/b/tool"⟩ :=
    ⟨by decide +kernel, by decide, by decide +kernel⟩
  have hsteps : (Path.mk "/b/tool").steps = ["b", "tool"] := by decide +kernel
  have htarget : (Path.mk "/c").steps = ["c"] := by decide +kernel
  have habsolute : (Path.mk "/c").isAbsolute = true := by decide
  have hlink : t.node? ([] ++ ["b"] ++ ["tool"]) = some (.link "/c") := rfl
  have hfile : t.node? ([] ++ ["c"]) = some (.file [] 0o755) := rfl
  have hexecutable : t.isExecutable [] ((Path.mk "/b").join "tool") = true := by
    rw [show (Path.mk "/b").join "tool" = ⟨"/b/tool"⟩ by decide +kernel,
      FileTree.isExecutable, FileTree.look, hwalkable.follow, ite_self, hsteps,
      FileTree.walk_directory ⟨by decide, by decide, by decide, by decide +kernel⟩ rfl,
      FileTree.linkLimit,
      FileTree.walk_link_followed ⟨by decide, by decide, by decide, by decide +kernel⟩ hlink
        (by decide), htarget, habsolute, if_pos rfl, List.append_nil,
      FileTree.walk_leaf ⟨by decide, by decide, by decide +kernel, by decide +kernel⟩ hfile
        (by decide) (by intro target h; cases h)]
    decide +kernel
  have hoffered : "tool" ∈ s.search.candidates t [] "to" :=
    (SearchPath.mem_candidates .root (by decide)).mpr
      ⟨⟨['o', 'l'], by decide⟩, ⟨"/b"⟩, by decide, by decide, hexecutable⟩
  have hname : "tool" ∈ sh.candidates "to" := List.mem_append_right _ hoffered
  have hjob : c.job? h = some ⟨h, ⟨none, none, none⟩⟩ := rfl
  obtain ⟨-, -, hcommand, -⟩ := candidates_runnable hspelled hname
  exact ⟨hspelled, hname, hjob, (hcommand c s h _ rfl rfl rfl rfl hjob).2⟩

end Shell

end LineShell
