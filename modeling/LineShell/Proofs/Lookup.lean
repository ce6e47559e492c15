import LineShell.Proofs.Children
import LineShell.SearchPath

/-!
# Lookup and completion

What a directory has under a name is in its listing. So looking up a name and
offering names agree on every directory of a search path but the empty one,
which is searched as the directory of the process and never listed.
-/

set_option autoImplicit false

namespace LineShell

namespace FileTree

theorem mem_names {t : FileTree} {loc : Location} {name : String} {node : Node}
    (h : t.node? (loc ++ [name]) = some node) : name ∈ t.names loc := by
  rw [node?, if_neg (by simp)] at h
  obtain ⟨before, after, hentries, -⟩ := List.lookup_eq_some_iff.mp h
  refine List.mem_filterMap.mpr ⟨(loc ++ [name], node), by simp [hentries], ?_⟩
  simp

section Last

variable {t : FileTree} {links : Nat} {start loc : Location} {steps : List String}
  {name : String} {slash : Bool} {place : Place}

theorem walk_last (hg : t.Grounded loc)
    (h : walk t .look links loc (steps ++ [name]) slash = .ok place) :
    ∃ left spot, Way t links loc steps left spot ∧ t.Grounded spot ∧
      walk t .look left spot [name] slash = .ok place := by
  have hnotLast : ∀ rest : List String, (rest ++ [name]).isEmpty = false := by simp
  -- along the walk of the steps before the last, whatever comes of it and with any slash
  have mark := false
  fun_induction walk t .look links loc steps mark with
  | case1 links loc | case2 links loc => exact ⟨links, loc, .done links loc, hg, h⟩
  | case3 links loc mark rest ih =>
    rw [List.cons_append, walk, if_pos rfl] at h
    obtain ⟨left, spot, hway, hspot, hlast⟩ := ih hg h
    exact ⟨left, spot, .here hway, hspot, hlast⟩
  | case4 links loc mark rest hne ih =>
    rw [List.cons_append, walk, if_neg hne, if_pos rfl] at h
    obtain ⟨left, spot, hway, hspot, hlast⟩ := ih hg.dropLast h
    exact ⟨left, spot, .up hway, hspot, hlast⟩
  | case5 links loc mark step rest h1 h2 isLast h3 => simp [Purpose.refusesSlash] at h3
  | case6 links loc mark step rest h1 h2 isLast h3 h4 =>
    rw [List.cons_append, walk, if_neg h1, if_neg h2] at h
    simp [Purpose.refusesSlash, h4] at h
  | case7 links loc mark step rest h1 h2 isLast next h3 h4 hn
  | case8 links loc mark step rest h1 h2 isLast next h3 h4 hn =>
    rw [List.cons_append, walk_unused ((Named.mk h1 h2 h4).enters .look (by simp [hnotLast])) hn,
      hnotLast] at h
    cases h
  | case9 links loc mark step rest h1 h2 isLast next h3 h4 hn ih =>
    rw [List.cons_append,
      walk_directory ((Named.mk h1 h2 h4).enters .look (by simp [hnotLast])) hn] at h
    obtain ⟨left, spot, hway, hspot, hlast⟩ := ih (hg.child hn) h
    exact ⟨left, spot, .enter ⟨h1, h2, h4⟩ hn hway, hspot, hlast⟩
  | case10 links loc mark step rest h1 h2 isLast next h3 h4 target hn hlast =>
    simp [Purpose.followsLast] at hlast
  | case11 loc mark step rest h1 h2 isLast next h3 h4 target hn hlast =>
    rw [List.cons_append, walk_link_refused
      ((Named.mk h1 h2 h4).enters .look (by simp [hnotLast])) hn (by simp [hnotLast])] at h
    cases h
  | case12 loc mark step rest h1 h2 isLast next h3 h4 target hn hlast links path ih =>
    rw [List.cons_append, walk_link_followed
      ((Named.mk h1 h2 h4).enters .look (by simp [hnotLast])) hn (by simp [hnotLast]),
      hnotLast, if_neg Bool.false_ne_true, ← List.append_assoc] at h
    obtain ⟨left, spot, hway, hspot, hlast⟩ := ih (hg.origin path.isAbsolute) h
    exact ⟨left, spot, .link ⟨h1, h2, h4⟩ hn hway, hspot, hlast⟩
  | case13 links loc mark step rest h1 h2 isLast next h3 h4 node hd hl hn
  | case14 links loc mark step rest h1 h2 isLast next h3 h4 node hd hl hn =>
    rw [List.cons_append, walk_leaf ((Named.mk h1 h2 h4).enters .look (by simp [hnotLast])) hn hd
      hl] at h
    simp [hnotLast] at h

theorem walk_named {left : Nat} {node : Node} (hg : t.Grounded loc)
    (h : walk t .look left loc [name] slash = .ok (.found start node))
    (hnode : node ≠ .directory) : ∃ entry, t.node? (loc ++ [name]) = some entry := by
  have hdirectory : ∀ {above : Location}, t.Grounded above →
      walk t .look left above [] slash ≠ .ok (.found start node) := by
    intro above habove hwalk
    rw [walk, habove.node] at hwalk
    cases hwalk
    exact hnode rfl
  by_cases hhere : name = "."
  · rw [walk, if_pos hhere] at h
    exact absurd h (hdirectory hg)
  by_cases hup : name = ".."
  · rw [walk, if_neg hhere, if_pos hup] at h
    exact absurd h (hdirectory hg.dropLast)
  cases hn : t.node? (loc ++ [name]) with
  | some entry => exact ⟨entry, rfl⟩
  | none =>
    rw [walk, if_neg hhere, if_neg hup] at h
    simp only [hn] at h
    split at h; · cases h
    split at h; · cases h
    cases h

end Last

section Listing

variable {t : FileTree} {start loc : Location} {base : Path} {name : String} {node : Node}

theorem listing_of_look (hg : t.Grounded start) (hbase : base.text ≠ "")
    (hname : Path.Part name) (h : t.look start (base.join name) = .ok (loc, node))
    (hnode : node ≠ .directory) : ∃ names, t.listing start base = some names ∧ name ∈ names := by
  obtain ⟨hjoin, hwalk⟩ := look_walk h
  rw [Path.join_origin hbase hname, Path.join_steps hbase hname,
    Path.join_endsInSlash hbase hname] at hwalk
  obtain ⟨left, spot, hway, hspot, hlast⟩ := walk_last (hg.origin _) hwalk
  obtain ⟨entry, hentry⟩ := walk_named hspot hlast hnode
  obtain ⟨gap, htext, -⟩ := Path.join_text hbase hname
  have hinitial : base.text.toList <+: (base.join name).text.toList := by
    rw [htext, List.append_assoc]
    exact List.prefix_append _ _
  have hlook := look_of_way (hjoin.initial hbase hinitial) hspot.node hway
  refine ⟨t.names spot, ?_, mem_names hentry⟩
  rw [listing, hlook]

theorem listing_empty (t : FileTree) (start : Location) : t.listing start ⟨""⟩ = none := rfl

theorem listing_of_isExecutable (hg : t.Grounded start) (hbase : base.text ≠ "")
    (hname : Path.Part name) (h : t.isExecutable start (base.join name) = true) :
    ∃ names, t.listing start base = some names ∧ name ∈ names := by
  unfold isExecutable at h
  split at h
  · rename_i loc node hlook
    refine listing_of_look hg hbase hname hlook ?_
    rintro rfl
    cases h
  · cases h

end Listing

end FileTree

namespace SearchPath

variable {p : SearchPath} {t : FileTree} {start : Location} {name typed : String} {path : Path}

theorem find?_eq_some (h : p.find? t start name = some path) : Path.Part name ∧
    ∃ dir ∈ p.dirs, path = dir.join name ∧ t.isExecutable start path = true := by
  unfold find? at h
  split at h
  · cases h
  rename_i hname
  simp only [Bool.or_eq_true, decide_eq_true_eq, not_or, List.contains_iff_mem] at hname
  have hfound := List.mem_of_find?_eq_some h
  obtain ⟨dir, hdir, rfl⟩ := List.mem_map.mp hfound
  exact ⟨⟨hname.1, hname.2⟩, dir, hdir, rfl, List.find?_some h⟩

/-- The names that are offered are those of executables in the directories that
have a listing. -/
theorem mem_candidates (hg : t.Grounded start) (hname : Path.Part name) :
    name ∈ p.candidates t start typed ↔ typed.toList <+: name.toList ∧
      ∃ dir ∈ p.dirs, dir.text ≠ "" ∧ t.isExecutable start (dir.join name) = true := by
  simp only [candidates, Names.mem_ofList, List.mem_flatMap, candidatesIn, List.mem_filter,
    Completion.startsWith, Bool.and_eq_true, List.isPrefixOf_iff_prefix]
  constructor
  · rintro ⟨dir, hdir, hlisted, htyped, hexecutable⟩
    refine ⟨htyped, dir, hdir, ?_, hexecutable⟩
    intro hempty
    have hdirEmpty : dir = ⟨""⟩ := congrArg Path.mk hempty
    rw [hdirEmpty, FileTree.listing_empty] at hlisted
    cases hlisted
  · rintro ⟨htyped, dir, hdir, hne, hexecutable⟩
    obtain ⟨names, hlisting, hmem⟩ := FileTree.listing_of_isExecutable hg hne hname hexecutable
    refine ⟨dir, hdir, ?_, htyped, hexecutable⟩
    rw [hlisting]
    exact hmem

/-- A name that is found is offered after every beginning of it, if one of the
directories that have it is not the empty one. Found elsewhere than directly in
the directory of the process, it is. -/
theorem find?_candidates (hg : t.Grounded start) (h : p.find? t start name = some path)
    (htyped : typed.toList <+: name.toList) :
    (name ∈ p.candidates t start typed ↔
      ∃ dir ∈ p.dirs, dir.text ≠ "" ∧ t.isExecutable start (dir.join name) = true) ∧
    (path ≠ ⟨name⟩ → name ∈ p.candidates t start typed) := by
  obtain ⟨hname, dir, hdir, rfl, hexecutable⟩ := find?_eq_some h
  have hoffered : name ∈ p.candidates t start typed ↔ _ := mem_candidates hg hname
  refine ⟨by rw [hoffered, and_iff_right htyped], fun helsewhere => ?_⟩
  refine hoffered.mpr ⟨htyped, dir, hdir, fun hempty => helsewhere ?_, hexecutable⟩
  rw [Path.join, hname.notAtRoot, hempty]
  simp

/-- An empty element before the directory that has the name. -/
theorem find?_candidates_relative :
    let t : FileTree := ⟨[(["bin"], .directory), (["bin", "tool"], .file [] 0o755)]⟩
    let p := ofEnvironment (some ":bin") []
    t.Grounded [] ∧ p.find? t [] "tool" = some ⟨"bin/tool"⟩ ∧
      "to".toList <+: "tool".toList ∧ "tool" ∈ p.candidates t [] "to" := by
  intro t p
  have hdirs : p.dirs.map (·.join "tool") = [⟨"tool"⟩, ⟨"bin/tool"⟩] := by decide +kernel
  have hmissing : t.isExecutable [] ⟨"tool"⟩ = false := by
    have hwalkable : FileTree.Walkable ⟨"tool"⟩ := ⟨by decide +kernel, by decide, by decide +kernel⟩
    have hsteps : (Path.mk "tool").steps = ["tool"] := by decide +kernel
    rw [FileTree.isExecutable, FileTree.look, hwalkable.follow, ite_self, hsteps,
      FileTree.walk_unused ⟨by decide, by decide, by decide +kernel, by decide +kernel⟩ rfl]
    rfl
  have hthere : t.isExecutable [] ⟨"bin/tool"⟩ = true := by
    have hwalkable : FileTree.Walkable ⟨"bin/tool"⟩ :=
      ⟨by decide +kernel, by decide, by decide +kernel⟩
    have hsteps : (Path.mk "bin/tool").steps = ["bin", "tool"] := by decide +kernel
    have hfile : t.node? ([] ++ ["bin"] ++ ["tool"]) = some (.file [] 0o755) := rfl
    rw [FileTree.isExecutable, FileTree.look, hwalkable.follow, ite_self, hsteps,
      FileTree.walk_directory ⟨by decide, by decide, by decide, by decide +kernel⟩ rfl,
      FileTree.walk_leaf ⟨by decide, by decide, by decide +kernel, by decide +kernel⟩ hfile
        (by decide) (by intro target h; cases h)]
    decide +kernel
  have hfound : p.find? t [] "tool" = some ⟨"bin/tool"⟩ := by
    rw [find?, if_neg (by decide +kernel), hdirs, List.find?_cons, hmissing, List.find?_cons, hthere]
  have htyped : "to".toList <+: "tool".toList := ⟨['o', 'l'], by decide⟩
  exact ⟨.root, hfound, htyped, (find?_candidates .root hfound htyped).2 (by simp)⟩

/-- An empty element of the environment's search path is searched and offers nothing. -/
theorem find?_not_offered :
    let t : FileTree := ⟨[(["tool"], .file [] 0o755)]⟩
    let p := ofEnvironment (some "") []
    t.Grounded [] ∧ p.find? t [] "tool" = some ⟨"tool"⟩ ∧ "to".toList <+: "tool".toList ∧
      "tool" ∉ p.candidates t [] "to" := by
  intro t p
  have hexecutable : t.isExecutable [] ⟨"tool"⟩ = true := by
    have hwalkable : FileTree.Walkable ⟨"tool"⟩ := ⟨by decide +kernel, by decide, by decide +kernel⟩
    have hsteps : (Path.mk "tool").steps = ["tool"] := by decide +kernel
    have hfile : t.node? ([] ++ ["tool"]) = some (.file [] 0o755) := rfl
    rw [FileTree.isExecutable, FileTree.look, hwalkable.follow, ite_self, hsteps,
      FileTree.walk_leaf ⟨by decide, by decide, by decide +kernel, by decide +kernel⟩ hfile
        (by decide) (by intro target h; cases h)]
    decide +kernel
  have hdirs : p.dirs.map (·.join "tool") = [⟨"tool"⟩] := by decide +kernel
  have hcandidates : p.candidates t [] "to" = [] := by decide +kernel
  refine ⟨.root, ?_, ⟨['o', 'l'], by decide⟩, ?_⟩
  · rw [find?, if_neg (by decide +kernel), hdirs, List.find?_cons, hexecutable]
  · rw [hcandidates]
    exact List.not_mem_nil

end SearchPath

end LineShell
