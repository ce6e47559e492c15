import LineShell.Proofs.Moving

/-!
# Moves that compose

A text between slashes is a list of moves, and a text after another with a slash
between them is one list after the other. Folding takes the moves in their order, so
it does not matter whether a path is folded before more is joined to it or only then.
Without steps up, a folded path leads where the path leads.
-/

set_option autoImplicit false

namespace LineShell

namespace Path

def move (part : String) : Component := if part = ".." then .up else .name part

def moves (s : String) : List Component :=
  ((parts ⟨s⟩).filter fun part => !isIdle part).map move

def names (p : Path) : List String := p.components.foldl foldNames []

section Moves

variable {p base : Path} {a b name : String}

theorem moves_slash (a b : String) : moves (a ++ "/" ++ b) = moves a ++ moves b := by
  have hparts : parts ⟨a ++ "/" ++ b⟩ = parts ⟨a⟩ ++ parts ⟨b⟩ := by
    have htext : (a ++ "/" ++ b).toList = a.toList ++ '/' :: b.toList := by simp
    rw [parts, parts, parts, htext, cutAt_append, List.map_append]
  rw [moves, hparts, List.filter_append, List.map_append]
  rfl

theorem moves_empty : moves "" = [] := rfl

theorem moves_name (h : Proper name) : moves name = [.name name] := by
  have hparts : parts ⟨name⟩ = [name] := by
    rw [parts, cutAt_of_notMem h.noSlash, List.map_singleton, String.ofList_toList]
  rw [moves, hparts, List.filter_cons_of_pos (by simp [h.not_idle]), List.filter_nil,
    List.map_singleton, move, if_neg h.notUp]

theorem moves_up : moves ".." = [.up] := by decide +kernel

theorem components_absolute (h : p.isAbsolute = true) : p.components = .root :: moves p.text := by
  obtain ⟨rest, hparts⟩ := isAbsolute_parts h
  have hkept : p.parts.filter (fun part => !isIdle part) =
      rest.filter fun part => !isIdle part := by
    rw [hparts]
    rfl
  rw [moves, hkept, components, hparts]
  simp only [h, if_true]
  rfl

theorem join_moves (hbase : base.text ≠ "") (hb : startsAtRoot b = false) :
    moves (base.join b).text = moves base.text ++ moves b := by
  rw [join, hb, if_neg Bool.false_ne_true]
  by_cases hslash : endsInSlash base.text = true
  · rw [endsInSlash, decide_eq_true_iff] at hslash
    obtain ⟨cs, hcs⟩ := List.getLast?_eq_some_iff.mp hslash
    have htext : base.text = String.ofList cs ++ "/" ++ "" := by
      apply String.toList_inj.mp
      simp [hcs]
    have hjoined : base.text ++ b = String.ofList cs ++ "/" ++ b := by
      rw [htext]
      simp
    rw [if_pos (by simp [endsInSlash, hslash]), hjoined, moves_slash, htext, moves_slash,
      moves_empty, List.append_nil]
  · rw [if_neg (by simp [hslash, hbase])]
    exact moves_slash base.text b

theorem text_ne_empty (h : p.isAbsolute = true) : p.text ≠ "" := by
  intro hempty
  rw [isAbsolute, hempty] at h
  cases h

theorem join_components (h : base.isAbsolute = true) (hb : startsAtRoot b = false) :
    (base.join b).components = base.components ++ moves b := by
  rw [components_absolute (join_isAbsolute h b), components_absolute h,
    join_moves (text_ne_empty h) hb]
  rfl

theorem names_proper (h : p.isAbsolute = true) : ∀ name ∈ p.names, Proper name :=
  foldNames_proper (components_proper h) (List.forall_mem_nil _)

theorem folded_names (h : p.isAbsolute = true) : p.folded = ofNames p.names := by
  rw [folded, if_pos h]
  rfl

theorem names_folded (h : p.isAbsolute = true) : p.folded.names = p.names := by
  rw [folded_names h, names, ofNames_components (names_proper h), List.foldl_cons,
    foldNames_names]
  rfl

theorem names_join (h : base.isAbsolute = true) (hb : startsAtRoot b = false) :
    (base.join b).names = (moves b).foldl foldNames base.names := by
  rw [names, join_components h hb, List.foldl_append]
  rfl

theorem folded_congr {q : Path} (hp : p.isAbsolute = true) (hq : q.isAbsolute = true)
    (hnames : p.names = q.names) : p.folded = q.folded := by
  rw [folded_names hp, folded_names hq, hnames]

/-- It does not matter whether a path is folded before something is joined to it. -/
theorem folded_join (h : p.isAbsolute = true) (hb : startsAtRoot b = false) :
    (p.folded.join b).folded = (p.join b).folded := by
  have habsolute : p.folded.isAbsolute = true := (straight_folded h).absolute
  apply folded_congr (join_isAbsolute habsolute b) (join_isAbsolute h b)
  rw [names_join habsolute hb, names_join h hb, names_folded h]

theorem folded_join_join (h : base.isAbsolute = true) (ha : a ≠ "") (hb : startsAtRoot b = false) :
    ((base.join a).join b).folded = (base.join (a ++ "/" ++ b)).folded := by
  have hfirst := join_isAbsolute h a
  apply folded_congr (join_isAbsolute hfirst b) (join_isAbsolute h _)
  rw [names_join hfirst hb]
  have hstart : startsAtRoot (a ++ "/" ++ b) = startsAtRoot a := by
    obtain ⟨c, cs, hcs⟩ := List.exists_cons_of_ne_nil (by simpa using ha : a.toList ≠ [])
    simp [startsAtRoot, hcs]
  by_cases hroot : startsAtRoot a = true
  · have hwhole : startsAtRoot (a ++ "/" ++ b) = true := hstart.trans hroot
    rw [join, if_pos hroot, join, if_pos hwhole, names, names, components_absolute hroot,
      components_absolute hwhole, moves_slash, ← List.foldl_append]
    rfl
  · rw [Bool.not_eq_true] at hroot
    rw [names_join h hroot, names_join h (hstart.trans hroot), moves_slash, List.foldl_append]

/-! ## Tildes -/

theorem expandTilde_none (s : String) : expandTilde none s = s := by
  unfold expandTilde
  split
  · rename_i hhome
    cases hhome
  · rfl

theorem expandTilde_head {s : String} (h : s.toList.head? ≠ some '~') (home : Option String) :
    expandTilde home s = s := by
  unfold expandTilde
  split
  · rename_i htext
    rw [htext] at h
    exact absurd rfl h
  · rfl

theorem expandTilde_tilde {s : String} {rest : List Char} (h : s.toList = '~' :: rest)
    (home : String) : expandTilde (some home) s =
      if rest.isEmpty || rest.head? = some '/' then home ++ String.ofList rest else s := by
  unfold expandTilde
  simp only [h]

theorem expandTilde_plain {s : String} (htilde : s ≠ "~") (hslash : ¬ ['~', '/'] <+: s.toList)
    (home : Option String) : expandTilde home s = s := by
  cases home with
  | none => exact expandTilde_none s
  | some home =>
    by_cases hhead : s.toList.head? = some '~'
    · obtain ⟨rest, hrest⟩ := List.head?_eq_some_iff.mp hhead
      rw [expandTilde_tilde hrest, if_neg]
      rw [hrest] at hslash
      match rest, hslash with
      | [], _ =>
        refine absurd ?_ htilde
        apply String.toList_inj.mp
        exact hrest
      | c :: rest, hslash =>
        have hc : c ≠ '/' := by
          rintro rfl
          exact hslash (List.prefix_append ['~', '/'] rest)
        simp [hc]
    · exact expandTilde_head hhead _

theorem expandTilde_slash (home : Option String) (ha : a ≠ "") (b : String) :
    expandTilde home (a ++ "/" ++ b) = expandTilde home a ++ "/" ++ b := by
  obtain ⟨c, cs, hcs⟩ := List.exists_cons_of_ne_nil (by simpa using ha : a.toList ≠ [])
  have hall : (a ++ "/" ++ b).toList = c :: (cs ++ '/' :: b.toList) := by simp [hcs]
  cases home with
  | none => rw [expandTilde_none, expandTilde_none]
  | some home =>
    by_cases htilde : c = '~'
    · subst htilde
      rw [expandTilde_tilde hcs, expandTilde_tilde hall]
      cases cs with
      | nil =>
        apply String.toList_inj.mp
        simp
      | cons d cs =>
        by_cases hd : d = '/'
        · subst hd
          apply String.toList_inj.mp
          simp
        · simp [hd]
    · rw [expandTilde_head (by simp [hall, htilde]), expandTilde_head (by simp [hcs, htilde])]

theorem expandTilde_ne_empty {home : Option String} (hhome : ∀ h ∈ home, h ≠ "") (ha : a ≠ "") :
    expandTilde home a ≠ "" := by
  cases home with
  | none => rwa [expandTilde_none]
  | some home =>
    by_cases hhead : a.toList.head? = some '~'
    · obtain ⟨rest, hrest⟩ := List.head?_eq_some_iff.mp hhead
      rw [expandTilde_tilde hrest]
      split
      · simp [hhome home rfl]
      · exact ha
    · rwa [expandTilde_head hhead]

/-! ## Paths without steps up -/

theorem Straight.components_eq (h : p.Straight) : p.components = .root :: p.names.map .name ∧
    p.names = p.parts.filter fun part => !isIdle part := by
  have hall := components_absolute h.absolute
  have hmoves : moves p.text = (p.parts.filter fun part => !isIdle part).map .name := by
    refine List.map_congr_left fun part hpart => if_neg ?_
    rintro rfl
    apply h.noUp
    rw [hall]
    exact List.mem_cons_of_mem _ (List.mem_map.mpr ⟨"..", hpart, rfl⟩)
  have hnames : p.names = p.parts.filter fun part => !isIdle part := by
    rw [names, hall, hmoves, List.foldl_cons, foldNames_names]
    rfl
  exact ⟨by rw [hall, hmoves, hnames], hnames⟩

theorem Straight.folded_same (h : p.Straight) : p.folded.same p = true := by
  rw [same, decide_eq_true_iff, folded_names h.absolute,
    ofNames_components (names_proper h.absolute), h.components_eq.1]

theorem Straight.join_name (h : p.Straight) (hname : Proper name) :
    (p.join name).Straight ∧ (p.join name).names = p.names ++ [name] := by
  have hroot := hname.toPart.notAtRoot
  have hall := join_components h.absolute hroot
  rw [moves_name hname] at hall
  refine ⟨⟨join_isAbsolute h.absolute name, ?_, ?_⟩, ?_⟩
  · simp [hall, h.noHere]
  · simp [hall, h.noUp]
  · rw [names_join h.absolute hroot, moves_name hname]
    rfl

theorem ofNames_steps {ns : List String} (h : ∀ name ∈ ns, Proper name) :
    (ofNames ns).steps = ns := by
  rw [steps, ofNames_parts h, List.filter_cons_of_neg (by decide)]
  split
  · rename_i hnone
    rw [hnone]
    rfl
  · rw [List.filter_eq_self]
    exact fun name hname => by simpa using (h name hname).nonempty

theorem Straight.names_steps (h : p.Straight) : p.names = p.steps.filter (· ≠ ".") := by
  rw [h.components_eq.2, steps, List.filter_filter]
  refine List.filter_congr fun part _ => ?_
  simp [isIdle, Bool.and_comm]

theorem intercalate_sublist (sep : Char) {parts kept : List (List Char)} (h : kept.Sublist parts) :
    ([sep].intercalate kept).Sublist ([sep].intercalate parts) := by
  induction h with
  | slnil => exact List.Sublist.refl _
  | @cons kept parts part h ih =>
    cases parts with
    | nil =>
      rw [List.sublist_nil.mp h]
      exact List.nil_sublist _
    | cons other parts =>
      rw [List.intercalate_cons_cons]
      exact ih.trans (List.sublist_append_right _ _)
  | @cons_cons kept parts part h ih =>
    cases parts with
    | nil =>
      rw [List.sublist_nil.mp h]
    | cons other parts =>
      rw [List.intercalate_cons_cons]
      cases kept with
      | nil =>
        rw [List.intercalate_singleton, List.append_assoc]
        exact List.sublist_append_left _ _
      | cons first kept =>
        rw [List.intercalate_cons_cons]
        exact (List.Sublist.refl _).append ih

theorem Straight.folded_sublist (h : p.Straight) : p.folded.text.toList.Sublist p.text.toList := by
  obtain ⟨rest, hparts⟩ := isAbsolute_parts h.absolute
  have htext : p.text.toList = '/' :: ['/'].intercalate (rest.map String.toList) := by
    rw [text_parts p, hparts]
    cases rest with
    | nil =>
      have hempty := text_parts p
      rw [hparts] at hempty
      exact absurd (by simpa using hempty) (text_ne_empty h.absolute)
    | cons part rest => rfl
  have hkept : p.names.Sublist rest := by
    rw [h.components_eq.2, hparts, List.filter_cons_of_neg (by decide)]
    exact List.filter_sublist
  rw [folded_names h.absolute, ofNames, location_text, htext]
  exact (intercalate_sublist '/' (hkept.map String.toList)).cons_cons '/'

end Moves

end Path

theorem utf8ByteSize_sublist {cs ds : List Char} (h : cs.Sublist ds) :
    (String.ofList cs).utf8ByteSize ≤ (String.ofList ds).utf8ByteSize := by
  induction h with
  | slnil => exact Nat.le_refl _
  | cons c h ih =>
    rw [String.ofList_cons, String.utf8ByteSize_append]
    omega
  | cons_cons c h ih =>
    rw [String.ofList_cons, String.ofList_cons, String.utf8ByteSize_append,
      String.utf8ByteSize_append]
    omega

namespace FileTree

section Ways

variable {t : FileTree} {links middle left : Nat} {loc spot dest start : Location}
  {steps more : List String} {p : Path}

theorem Way.append (h : Way t links loc steps middle spot) (h' : Way t middle spot more left dest) :
    Way t links loc (steps ++ more) left dest := by
  induction h with
  | done links loc => exact h'
  | here _ ih => exact .here (ih h')
  | up _ ih => exact .up (ih h')
  | enter hstep hn _ ih => exact .enter hstep hn (ih h')
  | link hstep hn _ ih =>
    refine .link hstep hn ?_
    have hlink := ih h'
    rwa [List.append_assoc] at hlink

theorem Way.undotted (h : Way t links loc steps left dest) :
    Way t links loc (steps.filter (· ≠ ".")) left dest := by
  induction steps generalizing links loc with
  | nil => exact h
  | cons step steps ih =>
    have hfirst : Way t links loc ([step] ++ steps) left dest := h
    obtain ⟨middle, spot, hstep, hrest⟩ := hfirst.split
    by_cases hdot : step = "."
    · subst hdot
      obtain ⟨rfl, rfl⟩ := hstep.dots (by simp)
      rw [List.filter_cons_of_neg (by simp)]
      exact ih hrest
    · rw [List.filter_cons_of_pos (by simpa using hdot)]
      exact hstep.append (ih hrest)

theorem Walkable.folded (h : Walkable p) (hp : p.Straight) : Walkable p.folded where
  noNul hnul := by
    obtain ⟨c, hc, hzero⟩ := List.any_eq_true.mp hnul
    exact h.noNul (List.any_eq_true.mpr ⟨c, hp.folded_sublist.subset hc, hzero⟩)
  nonempty := Path.text_ne_empty (Path.straight_folded hp.absolute).absolute
  short hlong := by
    have hsize := utf8ByteSize_sublist hp.folded_sublist
    rw [String.ofList_toList, String.ofList_toList] at hsize
    exact h.short (Nat.le_trans hlong hsize)

/-- Without steps up, a folded path leads where the path leads. -/
theorem isDirectory_folded (hp : p.Straight) (h : t.isDirectory start p = true) :
    t.isDirectory start p.folded = true := by
  unfold isDirectory at h
  split at h
  · rename_i loc hlook
    obtain ⟨hwalkable, hdest, left, hway⟩ := look_way hlook
    rw [if_pos hp.absolute] at hway
    have hfolded : t.look start p.folded = .ok (loc, .directory) := by
      have hsteps : p.folded.steps = p.steps.filter (· ≠ ".") := by
        rw [Path.folded_names hp.absolute, Path.ofNames_steps (Path.names_proper hp.absolute),
          hp.names_steps]
      have hundotted := hway.undotted
      rw [← hsteps] at hundotted
      apply look_of_way (hwalkable.folded hp) hdest
      rw [if_pos (Path.straight_folded hp.absolute).absolute]
      exact hundotted
    rw [isDirectory, hfolded]
  · cases h

end Ways

end FileTree

/-! ## The directories of a session -/

namespace Session

variable {s : Session} {a b d : String}

theorem directory_moved (hcwd : s.cwd.isAbsolute = true)
    (hhome : ∀ home ∈ s.home, home.isAbsolute = true) (ha : a ≠ "")
    (hb : Path.startsAtRoot b = false) (htilde : b ≠ "~") (hslash : ¬ ['~', '/'] <+: b.toList) :
    ({ s with cwd := s.directory a } : Session).directory b = s.directory (a ++ "/" ++ b) := by
  have hhomes : ∀ home ∈ s.home.map (·.text), home ≠ "" := by
    intro home hmem
    obtain ⟨p, hp, rfl⟩ := Option.map_eq_some_iff.mp hmem
    exact Path.text_ne_empty (hhome p hp)
  have hexpanded := Path.expandTilde_ne_empty hhomes ha
  unfold directory
  rw [Path.expandTilde_plain htilde hslash, Path.expandTilde_slash _ ha,
    Path.folded_join (Path.join_isAbsolute hcwd _) hb, Path.folded_join_join hcwd hexpanded hb]

theorem directory_name (hname : Path.Proper d) (htilde : d ≠ "~") :
    s.directory d = (s.cwd.join d).folded := by
  have hslash : ¬ ['~', '/'] <+: d.toList := fun h =>
    hname.noSlash (h.subset (List.mem_cons_of_mem _ List.mem_cons_self))
  rw [directory, Path.expandTilde_plain htilde hslash]

theorem directory_up_name (hcwd : s.cwd.Straight) (hname : Path.Proper d) (htilde : d ≠ "~") :
    ({ s with cwd := s.directory d } : Session).directory ".." = s.cwd.folded := by
  obtain ⟨hstraight, hnames⟩ := hcwd.join_name hname
  have hup : Path.startsAtRoot ".." = false := by decide +kernel
  have hplain : Path.expandTilde (s.home.map (·.text)) ".." = ".." :=
    Path.expandTilde_plain (by decide) (by decide +kernel) _
  rw [directory_name hname htilde, directory, hplain, Path.folded_join hstraight.absolute hup]
  apply Path.folded_congr (Path.join_isAbsolute hstraight.absolute _) hcwd.absolute
  rw [Path.names_join hstraight.absolute hup, hnames, Path.moves_up]
  exact List.dropLast_concat

end Session

namespace Builtin

variable {s : Session} {t : FileTree} {start : Location} {dir : String}

theorem run_cd_enters (h : t.isDirectory start (s.directory dir) = true) :
    cd.run s t start [dir] =
      ⟨[], .goOn 0, { s with cwd := s.directory dir }, [moving s (s.directory dir)]⟩ := by
  rw [run, runCd_enters h]

theorem run_cd_done : (cd.run s t start [dir]).flow = .goOn 0 ↔
    t.isDirectory start (s.directory dir) = true := by
  constructor
  · intro hflow
    by_contra hdirectory
    rw [Bool.not_eq_true] at hdirectory
    simp only [run, runCd, hdirectory] at hflow
    split at hflow <;> cases hflow
  · intro hdirectory
    rw [run_cd_enters hdirectory]

/-- Two moves are one. Where `cd` goes in two steps it goes in one, with a slash between
them, unless the second starts at the root or at home. A step down to a name and one up
lead back. -/
theorem run_cd_composes (s : Session) (t : FileTree) (start : Location)
    (hcwd : s.cwd.isAbsolute = true) (hhome : ∀ home ∈ s.home, home.isAbsolute = true) :
    (∀ a b : String, a ≠ "" → Path.startsAtRoot b = false → b ≠ "~" →
      ¬ ['~', '/'] <+: b.toList →
      let first := cd.run s t start [a]
      let second := cd.run first.session t start [b]
      let once := cd.run s t start [a ++ "/" ++ b]
      first.flow = .goOn 0 → second.flow = .goOn 0 →
        once.flow = .goOn 0 ∧ once.session = second.session) ∧
      ∀ d : String, s.cwd.Straight → t.isDirectory start s.cwd = true → Path.Proper d →
        d ≠ "~" → t.isDirectory start (s.cwd.join d) = true →
        let down := cd.run s t start [d]
        let back := cd.run down.session t start [".."]
        down.flow = .goOn 0 ∧ back.flow = .goOn 0 ∧
          back.session = { s with cwd := s.cwd.folded } ∧ s.cwd.folded.same s.cwd = true := by
  refine ⟨fun a b ha hb htilde hslash => ?_, fun d hstraight hhere hname htilde hdown => ?_⟩
  · intro first second once hfirst hsecond
    have htarget := Session.directory_moved hcwd hhome ha hb htilde hslash
    have hentered : first = _ := run_cd_enters (run_cd_done.mp hfirst)
    have hmoved : second = cd.run { s with cwd := s.directory a } t start [b] := by
      simp only [second, hentered]
    rw [hmoved, run_cd_done, htarget] at hsecond
    have honce : once = _ := run_cd_enters hsecond
    rw [← htarget] at hsecond
    rw [honce, hmoved, run_cd_enters hsecond, htarget]
    exact ⟨rfl, rfl⟩
  · intro down back
    -- the path goes through the name, its folding does not
    have hthere : t.isDirectory start (s.directory d) = true := by
      rw [Session.directory_name hname htilde]
      exact FileTree.isDirectory_folded (hstraight.join_name hname).1 hdown
    have hentered : down = _ := run_cd_enters hthere
    have htarget := Session.directory_up_name hstraight hname htilde
    have hback : t.isDirectory start
        (({ s with cwd := s.directory d } : Session).directory "..") = true := by
      rw [htarget]
      exact FileTree.isDirectory_folded hstraight hhere
    have hreturned : back = cd.run { s with cwd := s.directory d } t start [".."] := by
      simp only [back, hentered]
    rw [hreturned, hentered, run_cd_enters hback, htarget]
    exact ⟨rfl, rfl, rfl, hstraight.folded_same⟩

theorem run_cd_composes_back :
    let t : FileTree := ⟨[(["d"], .directory)]⟩
    let s : Session := ⟨⟨"/"⟩, none, ⟨[]⟩⟩
    let down := cd.run s t [] ["d"]
    let back := cd.run down.session t [] [".."]
    let once := cd.run s t [] ["d/.."]
    s.cwd.Straight ∧ down.flow = .goOn 0 ∧ back.flow = .goOn 0 ∧ back.session = s ∧
      once.flow = .goOn 0 ∧ once.session = s := by
  intro t s down back once
  have hcwd : s.cwd.Straight := by decide +kernel
  have hhere : t.isDirectory [] s.cwd = true := by
    rw [FileTree.isDirectory, show s.cwd = ⟨"/"⟩ from rfl, t.look_root]
  have hgrounded : t.Grounded ["d"] := @FileTree.Grounded.child t [] "d" .root rfl
  have hdown : t.isDirectory [] (s.cwd.join "d") = true := by
    rw [show s.cwd.join "d" = ⟨"/" ++ "/".intercalate ["d"]⟩ by decide +kernel,
      FileTree.isDirectory,
      FileTree.look_location [] (by decide +kernel) hgrounded (by decide +kernel)]
  have hname : Path.Proper "d" := ⟨⟨by decide, by decide⟩, by decide, by decide⟩
  obtain ⟨hcompose, hup⟩ := run_cd_composes s t [] hcwd.absolute nofun
  obtain ⟨hflow, hback, hsession, -⟩ := hup "d" hcwd hhere hname (by decide) hdown
  obtain ⟨honce, hsame⟩ := hcompose "d" ".." (by decide) (by decide +kernel) (by decide)
    (by decide +kernel) hflow hback
  have hfolded : s.cwd.folded = ⟨"/"⟩ := by decide +kernel
  rw [hfolded] at hsession
  exact ⟨hcwd, hflow, hback, hsession, honce, hsame.trans hsession⟩

end Builtin

end LineShell
