import LineShell.Proofs.Resolution
import LineShell.Proofs.Ways
import Mathlib.Data.List.TakeWhile

/-!
# Names in a directory

The path of a name in a directory leads to the entry of that name, and its
parent is the directory, however the path of the directory was written: with
links, steps up, dots or slashes at its end.
-/

set_option autoImplicit false

namespace LineShell

structure FileName (name : String) : Prop where
  nonempty : name ≠ ""
  noSlash : '/' ∉ name.toList
  noNul : ∀ c ∈ name.toList, c.toNat ≠ 0
  step : FileTree.Named name

theorem fileName_iff {name : String} :
    FileName name ↔ name ≠ "" ∧ '/' ∉ name.toList ∧
      (name.toList.all fun c => c.toNat ≠ 0) = true ∧ FileTree.Named name := by
  simp only [List.all_eq_true, decide_eq_true_eq]
  exact ⟨fun h => ⟨h.nonempty, h.noSlash, h.noNul, h.step⟩,
    fun ⟨hempty, hslash, hnul, hstep⟩ => ⟨hempty, hslash, hnul, hstep⟩⟩

instance (name : String) : Decidable (FileName name) := decidable_of_iff _ fileName_iff.symm

structure Path.Part (name : String) : Prop where
  nonempty : name ≠ ""
  noSlash : '/' ∉ name.toList

theorem FileName.part {name : String} (h : FileName name) : Path.Part name :=
  ⟨h.nonempty, h.noSlash⟩

theorem Path.Part.notAtRoot {name : String} (h : Path.Part name) :
    Path.startsAtRoot name = false := by
  rw [Path.startsAtRoot, decide_eq_false_iff_not]
  exact fun hhead => h.noSlash (List.mem_of_mem_head? hhead)

theorem FileName.not_idle {name : String} (h : FileName name) : Path.isIdle name = false := by
  simp [Path.isIdle, h.nonempty, h.step.notHere]

namespace Path

variable {base : Path} {name : String}

theorem join_text (hbase : base.text ≠ "") (hname : Part name) :
    ∃ gap, (base.join name).text.toList = base.text.toList ++ gap ++ name.toList ∧
      (gap = [] ∧ endsInSlash base.text = true ∨
        gap = ['/'] ∧ endsInSlash base.text = false) := by
  have hroot := hname.notAtRoot
  by_cases hslash : endsInSlash base.text = true
  · refine ⟨[], ?_, .inl ⟨rfl, hslash⟩⟩
    simp [join, hroot, hslash]
  · rw [Bool.not_eq_true] at hslash
    refine ⟨['/'], ?_, .inr ⟨rfl, hslash⟩⟩
    simp [join, hroot, hslash, hbase]

theorem join_size (base : Path) (hname : FileName name) :
    base.text.utf8ByteSize + name.utf8ByteSize ≤ (base.join name).text.utf8ByteSize := by
  unfold join
  rw [hname.part.notAtRoot, if_neg Bool.false_ne_true]
  split
  · rw [String.utf8ByteSize_append]
  · rw [String.utf8ByteSize_append, String.utf8ByteSize_append]
    omega

theorem join_parts (hbase : base.text ≠ "") (hname : Part name) :
    ∃ first rest, (base.join name).parts = first :: (rest ++ [name]) ∧
      (base.parts = first :: rest ∨ base.parts = first :: rest ++ [""]) := by
  obtain ⟨gap, htext, hgap⟩ := join_text hbase hname
  have hparts : ∀ cs : List Char, (cutAt '/' (cs ++ '/' :: name.toList)).map String.ofList =
      (cutAt '/' cs).map String.ofList ++ [name] := by
    intro cs
    rw [cutAt_append, cutAt_of_notMem hname.noSlash, List.map_append, List.map_singleton,
      String.ofList_toList]
  rcases hgap with ⟨rfl, hslash⟩ | ⟨rfl, -⟩
  · rw [endsInSlash, decide_eq_true_iff] at hslash
    obtain ⟨cs, hcs⟩ := List.getLast?_eq_some_iff.mp hslash
    obtain ⟨first, rest, hfirst⟩ := List.exists_cons_of_ne_nil (cutAt_ne_nil '/' cs)
    refine ⟨String.ofList first, rest.map String.ofList, ?_, .inr ?_⟩
    · rw [parts, htext, hcs, List.append_nil, List.append_assoc, List.singleton_append, hparts,
        hfirst]
      rfl
    · rw [parts, hcs, cutAt_append, hfirst]
      simp [cutAt]
  · obtain ⟨first, rest, hfirst⟩ := List.exists_cons_of_ne_nil (cutAt_ne_nil '/' base.text.toList)
    refine ⟨String.ofList first, rest.map String.ofList, ?_, .inl ?_⟩
    · rw [parts, htext, List.append_assoc, List.singleton_append, hparts, hfirst]
      rfl
    · rw [parts, hfirst]
      rfl

theorem join_steps (hbase : base.text ≠ "") (hname : Part name) :
    (base.join name).steps = base.steps ++ [name] := by
  obtain ⟨first, rest, hjoin, hparts⟩ := join_parts hbase hname
  have hkept : [name].filter (· ≠ "") = [name] := by simp [hname.nonempty]
  rw [steps, steps, hjoin, ← List.cons_append, List.filter_append, hkept]
  rcases hparts with hbase | hbase
  · rw [hbase]
  · rw [hbase, List.filter_append]
    simp

theorem join_origin (hbase : base.text ≠ "") (hname : Part name) :
    (base.join name).isAbsolute = base.isAbsolute := by
  obtain ⟨gap, htext, -⟩ := join_text hbase hname
  have hne : base.text.toList ≠ [] := by simpa using hbase
  obtain ⟨c, cs, hcs⟩ := List.exists_cons_of_ne_nil hne
  rw [isAbsolute, isAbsolute, startsAtRoot, startsAtRoot, htext, hcs]
  rfl

theorem join_endsInSlash (hbase : base.text ≠ "") (hname : Part name) :
    endsInSlash (base.join name).text = false := by
  obtain ⟨gap, htext, -⟩ := join_text hbase hname
  have hne : name.toList ≠ [] := by simpa using hname.nonempty
  have hlast : (base.join name).text.toList.getLast? = some (name.toList.getLast hne) := by
    rw [htext, List.getLast?_append, List.getLast?_eq_some_getLast hne]
    rfl
  rw [endsInSlash, hlast, decide_eq_false_iff_not]
  intro h
  have hmem := List.getLast_mem hne
  rw [Option.some.inj h] at hmem
  exact hname.noSlash hmem

theorem join_noNul (hbase : base.text ≠ "") (hname : FileName name)
    (hnul : ¬ base.text.toList.any (·.toNat = 0) = true) :
    ¬ (base.join name).text.toList.any (·.toNat = 0) = true := by
  obtain ⟨gap, htext, hgap⟩ := join_text hbase hname.part
  have hclean : gap.any (·.toNat = 0) = false := by
    rcases hgap with ⟨rfl, -⟩ | ⟨rfl, -⟩ <;> rfl
  have hfine : name.toList.any (·.toNat = 0) = false := by simpa using hname.noNul
  rw [htext, List.any_append, List.any_append, hclean, hfine]
  simpa using hnul

/-! ## The parent -/

theorem trimmed_append (first : String) (rest : List String) :
    ∃ idle, first :: rest = trimmed (first :: rest) ++ idle ∧
      ∀ part ∈ idle, isIdle part = true := by
  refine ⟨(rest.reverse.takeWhile isIdle).reverse, ?_, ?_⟩
  · rw [trimmed, List.cons_append, ← List.reverse_append, List.takeWhile_append_dropWhile,
      List.reverse_reverse]
  · intro part hpart
    exact List.mem_takeWhile_imp (List.mem_reverse.mp hpart)

theorem intercalate_prefix (sep : List Char) (a b : List (List Char)) :
    sep.intercalate a <+: sep.intercalate (a ++ b) := by
  induction a with
  | nil => exact List.nil_prefix
  | cons x a ih =>
    cases a with
    | nil =>
      cases b with
      | nil => exact List.prefix_rfl
      | cons y b =>
        rw [List.intercalate_singleton, List.singleton_append, List.intercalate_cons_cons,
          List.append_assoc]
        exact List.prefix_append _ _
    | cons y a =>
      rw [List.cons_append, List.cons_append, List.intercalate_cons_cons,
        List.intercalate_cons_cons, ← List.cons_append]
      exact (List.prefix_append_right_inj _).mpr ih

theorem mem_intercalate {sep c : Char} {parts : List (List Char)}
    (h : c ∈ [sep].intercalate parts) : c = sep ∨ ∃ part ∈ parts, c ∈ part := by
  induction parts with
  | nil => cases h
  | cons part parts ih =>
    cases parts with
    | nil => exact .inr ⟨part, List.mem_singleton_self part, by simpa using h⟩
    | cons other parts =>
      rw [List.intercalate_cons_cons, List.append_assoc, List.mem_append, List.mem_append,
        List.mem_singleton] at h
      rcases h with h | h | h
      · exact .inr ⟨part, List.mem_cons_self, h⟩
      · exact .inl h
      · obtain hsep | ⟨found, hfound, hc⟩ := ih h
        · exact .inl hsep
        · exact .inr ⟨found, List.mem_cons_of_mem _ hfound, hc⟩

theorem ofParts_text {ps : List String} (h : ps ≠ [""]) :
    (ofParts ps).text.toList = ['/'].intercalate (ps.map String.toList) := by
  rw [ofParts, if_neg h, String.toList_intercalate]
  rfl

theorem steps_ofParts {ps : List String} (hne : ps ≠ []) (hslash : ∀ p ∈ ps, '/' ∉ p.toList) :
    (ofParts ps).steps = ps.filter (· ≠ "") := by
  by_cases hroot : ps = [""]
  · rw [hroot]
    rfl
  · have hcut : cutAt '/' (ofParts ps).text.toList = ps.map String.toList := by
      rw [ofParts_text hroot]
      apply cutAt_intercalate (by simpa using hne)
      simpa using hslash
    have hparts : (ofParts ps).parts = ps := by
      rw [parts, hcut, List.map_map]
      simp [Function.comp_def]
    rw [steps, hparts]

theorem text_parts (p : Path) : p.text.toList = ['/'].intercalate (p.parts.map String.toList) := by
  rw [parts, List.map_map]
  simp [Function.comp_def, intercalate_cutAt]

theorem ofParts_prefix {p : Path} {ps extra : List String} (hp : p.text ≠ "")
    (hparts : p.parts = ps ++ extra) : (ofParts ps).text.toList <+: p.text.toList := by
  by_cases hroot : ps = [""]
  · cases extra with
    | nil =>
      have htext := text_parts p
      rw [hparts, hroot] at htext
      exact absurd (by simpa using htext) hp
    | cons part extra =>
      rw [text_parts p, hparts, hroot, List.map_append, List.map_singleton, List.map_cons,
        List.singleton_append, List.intercalate_cons_cons]
      exact List.prefix_append ['/'] _
  · rw [ofParts_text hroot, text_parts p, hparts, List.map_append]
    exact intercalate_prefix _ _ _

theorem ofParts_ne_empty {ps : List String} (hps : ps ≠ []) : (ofParts ps).text ≠ "" := by
  by_cases hroot : ps = [""]
  · rw [hroot]
    decide
  · intro hempty
    have htext := ofParts_text hroot
    rw [hempty] at htext
    match ps with
    | [] => exact hps rfl
    | [part] =>
      apply hroot
      simpa using htext.symm
    | part :: other :: rest =>
      rw [List.map_cons, List.map_cons, List.intercalate_cons_cons] at htext
      simp at htext

theorem location_text (loc : List String) : ("/" ++ "/".intercalate loc).toList =
    '/' :: ['/'].intercalate (loc.map String.toList) := by
  rw [String.toList_append, String.toList_intercalate]
  rfl

theorem location_isAbsolute (loc : List String) :
    (Path.mk ("/" ++ "/".intercalate loc)).isAbsolute = true := by
  rw [isAbsolute, startsAtRoot, location_text]
  rfl

theorem location_steps {loc : List String} (h : ∀ step ∈ loc, FileName step) :
    (Path.mk ("/" ++ "/".intercalate loc)).steps = loc := by
  rw [steps, parts, location_text, cutAt, if_pos rfl]
  cases loc with
  | nil => rfl
  | cons first rest =>
    have hcut : cutAt '/' (['/'].intercalate ((first :: rest).map String.toList)) =
        (first :: rest).map String.toList := by
      apply cutAt_intercalate (by simp)
      simpa using fun step hstep => (h step hstep).noSlash
    have hkept : (first :: rest).filter (· ≠ "") = first :: rest := by
      rw [List.filter_eq_self]
      simpa using fun step hstep => (h step hstep).nonempty
    rw [hcut, List.map_cons, List.map_map, List.filter_cons_of_neg (by decide)]
    simpa [Function.comp_def] using hkept

/-- The parent of a name is the directory without the idle parts at its end. -/
theorem join_parent (hbase : base.text ≠ "") (hname : FileName name) :
    ∃ parent, (base.join name).parent? = some parent ∧ parent.text ≠ "" ∧
      parent.text.toList <+: base.text.toList ∧
      ∃ dots, (∀ step ∈ dots, step = ".") ∧ base.steps = parent.steps ++ dots := by
  obtain ⟨first, rest, hjoin, hparts⟩ := join_parts hbase hname.part
  obtain ⟨idle, hsplit, hidle⟩ := trimmed_append first rest
  have htrimmed : trimmed (first :: (rest ++ [name])) = first :: (rest ++ [name]) := by
    simp [trimmed, hname.not_idle]
  have hne : trimmed (first :: rest) ≠ [] := by simp [trimmed]
  have hextra : ∃ extra, base.parts = trimmed (first :: rest) ++ extra ∧
      ∀ part ∈ extra, isIdle part = true := by
    rcases hparts with hparts | hparts
    · exact ⟨idle, hparts.trans hsplit, hidle⟩
    · refine ⟨idle ++ [""], ?_, ?_⟩
      · rw [hparts, ← List.append_assoc, ← hsplit]
      · rw [List.forall_mem_append]
        exact ⟨hidle, by simp [isIdle]⟩
  obtain ⟨extra, hall, hidle⟩ := hextra
  have hslash : ∀ p ∈ trimmed (first :: rest), '/' ∉ p.toList := by
    intro p hp
    have hmem : p ∈ base.parts := by
      rw [hall]
      exact List.mem_append_left _ hp
    obtain ⟨part, hpart, rfl⟩ := List.mem_map.mp hmem
    rw [String.toList_ofList]
    exact notMem_cutAt '/' _ part hpart
  refine ⟨ofParts (trimmed (first :: rest)), ?_, ofParts_ne_empty hne,
    ofParts_prefix hbase hall, extra.filter (· ≠ ""), ?_, ?_⟩
  · rw [parent?, hjoin, htrimmed]
    simp
  · intro step hstep
    obtain ⟨hmem, hnonempty⟩ := List.mem_filter.mp hstep
    have hstep := hidle step hmem
    simp only [isIdle, Bool.or_eq_true, decide_eq_true_eq] at hstep
    exact hstep.resolve_left (by simpa using hnonempty)
  · rw [steps_ofParts hne hslash, steps, hall, List.filter_append]

end Path

/-- A node that no way goes on from. -/
structure Node.IsLeaf (node : Node) : Prop where
  notDirectory : node ≠ .directory
  notLink : ∀ target, node ≠ .link target

namespace FileTree

/-- A path that is not refused for its text. -/
structure Walkable (p : Path) : Prop where
  noNul : ¬ p.text.toList.any (·.toNat = 0) = true
  nonempty : p.text ≠ ""
  short : ¬ p.text.utf8ByteSize ≥ pathLimit

section Look

variable {t u : FileTree} {start loc : Location} {p q : Path} {node : Node}

theorem Walkable.follow (h : Walkable p) (t : FileTree) (start : Location) (purpose : Purpose) :
    t.follow start purpose p =
      walk t purpose linkLimit (if p.isAbsolute then [] else start) p.steps
        (Path.endsInSlash p.text) := by
  rw [FileTree.follow, if_neg h.noNul, if_neg h.nonempty, if_neg h.short]

theorem Walkable.initial (h : Walkable p) (hne : q.text ≠ "")
    (hq : q.text.toList <+: p.text.toList) : Walkable q := by
  obtain ⟨tail, htail⟩ := hq
  constructor
  · have hnul := h.noNul
    rw [← htail, List.any_append, Bool.or_eq_true, not_or] at hnul
    exact hnul.1
  · exact hne
  · have htext : p.text = q.text ++ String.ofList tail := by
      apply String.toList_inj.mp
      rw [String.toList_append, String.toList_ofList, htail]
    have hshort := h.short
    rw [htext, String.utf8ByteSize_append] at hshort
    omega

theorem look_walk (h : t.look start p = .ok (loc, node)) :
    Walkable p ∧ walk t .look linkLimit (if p.isAbsolute then [] else start) p.steps
      (Path.endsInSlash p.text) = .ok (.found loc node) := by
  unfold look at h
  split at h
  · rename_i found hfollow
    cases h
    unfold follow at hfollow
    split at hfollow; · cases hfollow
    split at hfollow; · cases hfollow
    split at hfollow; · cases hfollow
    rename_i hnul hempty hlong
    exact ⟨⟨hnul, hempty, hlong⟩, hfollow⟩
  · cases h
  · cases h

theorem look_way (h : t.look start p = .ok (loc, .directory)) :
    Walkable p ∧ t.node? loc = some .directory ∧
      ∃ left, Way t linkLimit (if p.isAbsolute then [] else start) p.steps left loc := by
  obtain ⟨hp, hwalk⟩ := look_walk h
  obtain ⟨left, hway, hdest⟩ := walk_way hwalk
  exact ⟨hp, hdest, left, hway⟩

theorem look_of_way {left : Nat} (hp : Walkable p) (hdest : t.node? loc = some .directory)
    (hway : Way t linkLimit (if p.isAbsolute then [] else start) p.steps left loc) :
    t.look start p = .ok (loc, .directory) := by
  rw [look, hp.follow, hway.look hdest]

theorem walkable_location (hsteps : ∀ step ∈ loc, FileName step)
    (hshort : ("/" ++ "/".intercalate loc).utf8ByteSize < pathLimit) :
    Walkable ⟨"/" ++ "/".intercalate loc⟩ := by
  refine ⟨?_, ?_, Nat.not_le.mpr hshort⟩
  · rw [Path.location_text, List.any_cons]
    simp only [Bool.or_eq_true, List.any_eq_true, decide_eq_true_eq]
    rintro (hslash | ⟨c, hc, hnul⟩)
    · cases hslash
    · obtain rfl | ⟨part, hpart, hmem⟩ := Path.mem_intercalate hc
      · cases hnul
      · obtain ⟨step, hstep, rfl⟩ := List.mem_map.mp hpart
        exact (hsteps step hstep).noNul c hmem hnul
  · intro hempty
    have hnil : ("/" ++ "/".intercalate loc).toList = [] := by
      rw [show "/" ++ "/".intercalate loc = "" from hempty]
      rfl
    cases (Path.location_text loc).symm.trans hnil

theorem look_location (start : Location) (hsteps : ∀ step ∈ loc, FileName step)
    (hdir : ∀ reached, reached <+: loc → t.node? reached = some .directory)
    (hshort : ("/" ++ "/".intercalate loc).utf8ByteSize < pathLimit) :
    t.look start ⟨"/" ++ "/".intercalate loc⟩ = .ok (loc, .directory) := by
  have hway : Way t linkLimit [] loc linkLimit loc :=
    .down linkLimit [] (fun step hstep => (hsteps step hstep).step) hdir
  apply look_of_way (walkable_location hsteps hshort) (hdir loc List.prefix_rfl)
  rw [Path.location_isAbsolute, Path.location_steps hsteps]
  exact hway

theorem look_root (t : FileTree) (start : Location) : t.look start ⟨"/"⟩ = .ok ([], .directory) :=
  look_location start (List.forall_mem_nil _) Grounded.root (by decide)

theorem look_paved (h : t.look start p = .ok (loc, .directory)) (hpaves : t.Paves u) :
    u.look start p = .ok (loc, .directory) := by
  obtain ⟨hp, hdest, left, hway⟩ := look_way h
  exact look_of_way hp (hpaves.directory loc hdest) (hway.paved hpaves)

end Look

section Child

variable {t : FileTree} {start loc : Location} {base : Path} {name : String}

theorem isDirectory_parent (h : t.look start base = .ok (loc, .directory))
    (hname : FileName name) : ¬ Redirect.LacksParent start t (base.join name) := by
  obtain ⟨hbase, hdest, left, hway⟩ := look_way h
  obtain ⟨parent, hparent, hne, hprefix, dots, hdots, hsteps⟩ :=
    Path.join_parent hbase.nonempty hname
  have horigin : parent.isAbsolute = base.isAbsolute := by
    have htext : parent.text.toList ≠ [] := by simpa using hne
    obtain ⟨c, cs, hcs⟩ := List.exists_cons_of_ne_nil htext
    obtain ⟨tail, htail⟩ := hprefix
    rw [Path.isAbsolute, Path.isAbsolute, Path.startsAtRoot, Path.startsAtRoot, ← htail, hcs]
    rfl
  have hlook : t.look start parent = .ok (loc, .directory) := by
    rw [hsteps] at hway
    apply look_of_way (hbase.initial hne hprefix) hdest
    rw [horigin]
    exact hway.without_dots hdots
  simp [Redirect.LacksParent, hparent, isDirectory, hlook]

theorem follow_child (h : t.look start base = .ok (loc, .directory)) (hname : FileName name)
    (hshort : (base.join name).text.utf8ByteSize < pathLimit) (purpose : Purpose) :
    ∃ left, t.follow start purpose (base.join name) = walk t purpose left loc [name] false := by
  obtain ⟨hbase, -, left, hway⟩ := look_way h
  have hchild : Walkable (base.join name) := by
    refine ⟨Path.join_noNul hbase.nonempty hname hbase.noNul, ?_, Nat.not_le.mpr hshort⟩
    intro hempty
    have hsteps := Path.join_steps hbase.nonempty hname.part
    rw [Path.steps, Path.parts, hempty] at hsteps
    simp [cutAt] at hsteps
  refine ⟨left, ?_⟩
  rw [hchild.follow, Path.join_origin hbase.nonempty hname.part,
    Path.join_steps hbase.nonempty hname.part, Path.join_endsInSlash hbase.nonempty hname.part,
    hway.walk (by simp)]

theorem follow_unused (h : t.look start base = .ok (loc, .directory)) (hname : FileName name)
    (hshort : (base.join name).text.utf8ByteSize < pathLimit) (purpose : Purpose)
    (hn : t.node? (loc ++ [name]) = none) :
    t.follow start purpose (base.join name) = .ok (.vacant (loc ++ [name])) := by
  obtain ⟨left, hfollow⟩ := follow_child h hname hshort purpose
  rw [hfollow, walk_unused (hname.step.enters purpose (by simp)) hn]
  rfl

theorem follow_used {node : Node} (h : t.look start base = .ok (loc, .directory))
    (hname : FileName name) (hshort : (base.join name).text.utf8ByteSize < pathLimit)
    (purpose : Purpose) (hn : t.node? (loc ++ [name]) = some node) (hleaf : node.IsLeaf) :
    t.follow start purpose (base.join name) = .ok (.found (loc ++ [name]) node) := by
  obtain ⟨left, hfollow⟩ := follow_child h hname hshort purpose
  rw [hfollow, walk_leaf (hname.step.enters purpose (by simp)) hn hleaf.notDirectory hleaf.notLink]
  rfl

end Child

end FileTree

end LineShell
