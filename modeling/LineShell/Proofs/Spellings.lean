import LineShell.Proofs.Composing
import LineShell.Proofs.Matching
import LineShell.Proofs.Offering

/-!
# Spellings of a directory

Slashes and dots that lead nowhere make spellings of one path: their components are the
same, and so is the directory that they name, as long as no path is too long for the
system. A directory that is added to a search path is left out if a spelling of it is
there. Whatever is looked up was then found before, so nothing is lost by leaving it out.
-/

set_option autoImplicit false

namespace LineShell

namespace Path

def solid (p : Path) : List String := p.parts.filter fun part => !isIdle part

section Components

variable {p q : Path}

theorem components_eq (p : Path) : p.components =
    (if p.isAbsolute then [.root] else if p.parts.head? = some "." then [.here] else []) ++
      p.solid.map move := by
  obtain ⟨first, rest, hparts⟩ := List.exists_cons_of_ne_nil (cutAt_ne_nil '/' p.text.toList)
  have hcons : p.parts = String.ofList first :: rest.map String.ofList := by
    rw [parts, hparts]
    rfl
  by_cases habsolute : p.isAbsolute = true
  · rw [components_absolute habsolute, if_pos habsolute]
    rfl
  · rw [if_neg habsolute, components, solid, hcons]
    simp only [if_neg habsolute, List.head?_cons, Option.some.injEq]
    split
    · rename_i hempty
      rw [hempty, if_neg (by decide), List.filter_cons_of_neg (by decide)]
      rfl
    split
    · rename_i hdot
      rw [hdot, List.filter_cons_of_neg (by decide)]
      rfl
    · rename_i hempty hdot
      rw [List.filter_cons_of_pos (by simp [isIdle, hempty, hdot])]
      rfl

theorem move_injective : Function.Injective move := by
  intro a b h
  unfold move at h
  split at h <;> split at h
  · simp_all
  · cases h
  · cases h
  · exact Component.name.inj h

theorem move_moves (part : String) : move part ≠ .root ∧ move part ≠ .here := by
  unfold move
  split <;> simp

theorem isAbsolute_iff : p.isAbsolute = true ↔ .root ∈ p.components := by
  have hmoves : .root ∉ p.solid.map move := by
    intro hroot
    obtain ⟨part, -, hpart⟩ := List.mem_map.mp hroot
    exact (move_moves part).1 hpart
  rw [components_eq, List.mem_append, or_iff_left hmoves]
  split
  · simp [*]
  · split <;> simp [*]

theorem map_solid : p.solid.map move = p.components.filter fun c => c ≠ .root ∧ c ≠ .here := by
  have hkept : (p.solid.map move).filter (fun c => c ≠ .root ∧ c ≠ .here) = p.solid.map move := by
    rw [List.filter_eq_self]
    intro c hc
    obtain ⟨part, -, rfl⟩ := List.mem_map.mp hc
    exact decide_eq_true (move_moves part)
  rw [components_eq, List.filter_append, hkept]
  split
  · rfl
  · split <;> rfl

theorem parts_relative (hne : p.text ≠ "") (h : ¬ p.isAbsolute = true) :
    ∃ first rest, p.parts = first :: rest ∧ first ≠ "" := by
  obtain ⟨c, cs, hcs⟩ := List.exists_cons_of_ne_nil (mt String.toList_eq_nil_iff.mp hne)
  obtain ⟨part, more, hmore⟩ := List.exists_cons_of_ne_nil (cutAt_ne_nil '/' cs)
  have hc : c ≠ '/' := by
    rintro rfl
    exact h (by simp [isAbsolute, startsAtRoot, hcs])
  refine ⟨String.ofList (c :: part), more.map String.ofList, ?_, by simp⟩
  rw [parts, hcs, cutAt, if_neg hc, hmore]
  rfl

theorem components_eq_nil_iff : p.components = [] ↔ p.text = "" := by
  constructor
  · intro h
    have hrelative : ¬ p.isAbsolute = true := by
      rw [isAbsolute_iff, h]
      exact List.not_mem_nil
    by_contra hne
    obtain ⟨first, rest, hparts, hfirst⟩ := parts_relative hne hrelative
    rw [components_eq, if_neg hrelative, hparts] at h
    by_cases hdot : first = "."
    · simp [hdot] at h
    · have hsolid : p.solid = first :: rest.filter fun part => !isIdle part := by
        rw [solid, hparts, List.filter_cons_of_pos (by simp [isIdle, hfirst, hdot])]
      simp [hsolid] at h
  · intro h
    rw [show p = ⟨""⟩ from congrArg Path.mk h]
    rfl

theorem same_symm (h : p.same q = true) : q.same p = true :=
  decide_eq_true (of_decide_eq_true h).symm

theorem same_solid (h : p.same q = true) :
    p.isAbsolute = q.isAbsolute ∧ p.solid = q.solid ∧ (p.text = "" ↔ q.text = "") := by
  have hsame : p.components = q.components := of_decide_eq_true h
  refine ⟨?_, ?_, ?_⟩
  · rw [Bool.eq_iff_iff, isAbsolute_iff, isAbsolute_iff, hsame]
  · apply List.map_injective_iff.mpr move_injective
    rw [map_solid, map_solid, hsame]
  · rw [← components_eq_nil_iff, ← components_eq_nil_iff, hsame]

theorem solid_steps (p : Path) : p.solid = p.steps.filter (· ≠ ".") := by
  rw [solid, steps, List.filter_filter]
  refine List.filter_congr fun part _ => ?_
  simp [isIdle, Bool.and_comm]

theorem mem_text_same (h : p.same q = true) {c : Char} (hc : c ∈ p.text.toList) (hslash : c ≠ '/')
    (hdot : c ≠ '.') : c ∈ q.text.toList := by
  rw [text_parts] at hc
  obtain ⟨cs, hcs, hmem⟩ := (mem_intercalate hc).resolve_left hslash
  obtain ⟨part, hpart, rfl⟩ := List.mem_map.mp hcs
  have hidle : isIdle part = false := by
    rw [isIdle, Bool.or_eq_false_iff, decide_eq_false_iff_not, decide_eq_false_iff_not]
    refine ⟨?_, ?_⟩
    · rintro rfl
      cases hmem
    · rintro rfl
      exact hdot (List.mem_singleton.mp hmem)
  have hsolid : part ∈ p.solid := List.mem_filter.mpr ⟨hpart, by simp [hidle]⟩
  rw [(same_solid h).2.1] at hsolid
  have hkept : [part.toList].Sublist (q.parts.map String.toList) :=
    List.singleton_sublist.mpr (List.mem_map_of_mem (List.mem_filter.mp hsolid).1)
  rw [text_parts]
  exact (intercalate_sublist '/' hkept).subset (by simpa using hmem)

theorem join_size_le (base : Path) (name : String) : (base.join name).text.utf8ByteSize ≤
    base.text.utf8ByteSize + 1 + name.utf8ByteSize := by
  unfold join
  split
  · simp only
    omega
  split
  · rw [String.utf8ByteSize_append]
    omega
  · rw [String.utf8ByteSize_append, String.utf8ByteSize_append]
    exact Nat.le_refl _

end Components

end Path

namespace FileTree

/-- Two paths name the same directory, as far as can be told by looking something up in it:
it has one listing, and under each name there is something to run from both or from none. -/
structure SameDirectory (t : FileTree) (start : Location) (p q : Path) : Prop where
  listing : t.listing start p = t.listing start q
  executable : ∀ name, Path.Part name →
    t.isExecutable start (p.join name) = t.isExecutable start (q.join name)

def LeavesRoom (p : Path) : Prop := p.text.utf8ByteSize + 1 + nameLimit < pathLimit

instance (p : Path) : Decidable (LeavesRoom p) :=
  inferInstanceAs (Decidable (p.text.utf8ByteSize + 1 + nameLimit < pathLimit))

section Lookup

variable {t : FileTree} {start loc dest : Location} {links left : Nat} {steps : List String}
  {p q : Path} {name : String}

theorem Way.dotted (h : Way t links loc (steps.filter (· ≠ ".")) left dest) :
    Way t links loc steps left dest := by
  induction steps generalizing links loc with
  | nil => exact h
  | cons step steps ih =>
    by_cases hdot : step = "."
    · subst hdot
      rw [List.filter_cons_of_neg (by simp)] at h
      exact .here (ih h)
    · rw [List.filter_cons_of_pos (by simpa using hdot)] at h
      have hfirst : Way t links loc ([step] ++ steps.filter (· ≠ ".")) left dest := h
      obtain ⟨middle, spot, hstep, hrest⟩ := hfirst.split
      exact hstep.append (ih hrest)

theorem Way.same (hsame : p.same q = true)
    (h : Way t links (if p.isAbsolute then [] else start) p.steps left dest) :
    Way t links (if q.isAbsolute then [] else start) q.steps left dest := by
  obtain ⟨horigin, hsolid, -⟩ := Path.same_solid hsame
  have hway := h.undotted
  rw [← Path.solid_steps, hsolid, Path.solid_steps, horigin] at hway
  exact hway.dotted

theorem Walkable.same (h : Walkable p) (hsame : p.same q = true)
    (hq : q.text.utf8ByteSize < pathLimit) : Walkable q where
  noNul hnul := by
    obtain ⟨c, hc, hzero⟩ := List.any_eq_true.mp hnul
    rw [decide_eq_true_eq] at hzero
    refine h.noNul (List.any_eq_true.mpr
      ⟨c, Path.mem_text_same (Path.same_symm hsame) hc ?_ ?_, by simpa using hzero⟩)
    · rintro rfl
      cases hzero
    · rintro rfl
      cases hzero
  nonempty hempty := h.nonempty ((Path.same_solid hsame).2.2.mpr hempty)
  short := Nat.not_le.mpr hq

theorem walkable_join_iff (hp : p.text ≠ "") (hname : Path.Part name) :
    Walkable (p.join name) ↔ Walkable p ∧ ¬ name.toList.any (·.toNat = 0) = true ∧
      (p.join name).text.utf8ByteSize < pathLimit := by
  obtain ⟨gap, htext, hgap⟩ := Path.join_text hp hname
  have hclean : gap.any (·.toNat = 0) = false := by
    rcases hgap with ⟨rfl, -⟩ | ⟨rfl, -⟩ <;> rfl
  have hnul : (p.join name).text.toList.any (·.toNat = 0) =
      (p.text.toList.any (·.toNat = 0) || name.toList.any (·.toNat = 0)) := by
    rw [htext, List.any_append, List.any_append, hclean, Bool.or_false]
  have hinitial : p.text.toList <+: (p.join name).text.toList := by
    rw [htext, List.append_assoc]
    exact List.prefix_append _ _
  constructor
  · intro h
    have hclear := h.noNul
    rw [hnul, Bool.or_eq_true, not_or] at hclear
    exact ⟨h.initial hp hinitial, hclear.2, Nat.not_le.mp h.short⟩
  · rintro ⟨hbase, hclear, hshort⟩
    refine ⟨?_, ?_, Nat.not_le.mpr hshort⟩
    · rw [hnul, Bool.or_eq_true, not_or]
      exact ⟨hbase.noNul, hclear⟩
    · intro hempty
      rw [hempty] at hinitial
      exact hp (String.toList_eq_nil_iff.mp (List.prefix_nil.mp hinitial))

theorem walk_short {place : Place} {slash : Bool}
    (h : walk t .look left loc [name] slash = .ok place) : name.utf8ByteSize ≤ nameLimit := by
  by_cases hhere : name = "."
  · rw [hhere]
    decide
  by_cases hup : name = ".."
  · rw [hup]
    decide
  by_contra hlong
  rw [walk, if_neg hhere, if_neg hup] at h
  simp [Purpose.refusesSlash, Nat.not_le.mp hlong] at h

theorem listing_same (hsame : p.same q = true) (hp : p.text.utf8ByteSize < pathLimit)
    (hq : q.text.utf8ByteSize < pathLimit) : t.listing start p = t.listing start q := by
  have hlook {p q : Path} (hsame : p.same q = true) (hq : q.text.utf8ByteSize < pathLimit)
      {loc : Location} (h : t.look start p = .ok (loc, .directory)) :
      t.look start q = .ok (loc, .directory) := by
    obtain ⟨hp, hloc, left, hway⟩ := look_way h
    exact look_of_way (hp.same hsame hq) hloc (hway.same hsame)
  unfold listing
  split
  · rename_i loc hfound
    rw [hlook hsame hq hfound]
  · rename_i hnone
    split
    · rename_i loc hfound
      exact absurd (hlook (Path.same_symm hsame) hp hfound) (hnone loc)
    · rfl

theorem isExecutable_same (hg : t.Grounded start) (hsame : p.same q = true) (hq : LeavesRoom q)
    (hname : Path.Part name) (h : t.isExecutable start (p.join name) = true) :
    t.isExecutable start (q.join name) = true := by
  obtain ⟨horigin, -, hempty⟩ := Path.same_solid hsame
  by_cases hp : p.text = ""
  · have hpq : p = q := congrArg Path.mk (hp.trans (hempty.mp hp).symm)
    rwa [← hpq]
  have hqne : q.text ≠ "" := mt hempty.mpr hp
  unfold isExecutable at h ⊢
  split at h
  · rename_i loc node hlook
    obtain ⟨hjoined, hwalk⟩ := look_walk hlook
    rw [Path.join_origin hp hname, Path.join_steps hp hname, Path.join_endsInSlash hp hname] at hwalk
    obtain ⟨left, spot, hway, hspot, hlast⟩ := walk_last (hg.origin _) hwalk
    have hshort := walk_short hlast
    obtain ⟨hbase, hclear, -⟩ := (walkable_join_iff hp hname).mp hjoined
    have hsize := Path.join_size_le q name
    have hroom : q.text.utf8ByteSize + 1 + nameLimit < pathLimit := hq
    have hother : Walkable (q.join name) := (walkable_join_iff hqne hname).mpr
      ⟨hbase.same hsame (by omega), hclear, by omega⟩
    have hfound : t.look start (q.join name) = .ok (loc, node) := by
      rw [look, hother.follow, Path.join_origin hqne hname, Path.join_steps hqne hname,
        Path.join_endsInSlash hqne hname, (hway.same hsame).walk (by simp), hlast]
    rw [hfound]
    exact h
  · cases h

theorem sameDirectory_of_same (hg : t.Grounded start) (hsame : p.same q = true)
    (hp : LeavesRoom p) (hq : LeavesRoom q) : t.SameDirectory start p q := by
  constructor
  · unfold LeavesRoom at hp hq
    exact listing_same hsame (by omega) (by omega)
  · intro name hname
    rw [Bool.eq_iff_iff]
    exact ⟨isExecutable_same hg hsame hq hname,
      isExecutable_same hg (Path.same_symm hsame) hp hname⟩

end Lookup

end FileTree

namespace SearchPath

section Adding

variable {p : SearchPath} {dir : Path} {extra : List Path} {Q : Path → Bool}

theorem prefix_add (p : SearchPath) (dir : Path) : p.dirs <+: (p.add dir).dirs := by
  unfold add
  split
  · exact List.prefix_rfl
  · exact List.prefix_append _ _

theorem add_sublist (p : SearchPath) (dir : Path) : (p.add dir).dirs.Sublist (p.dirs ++ [dir]) := by
  unfold add
  split
  · exact List.sublist_append_left _ _
  · exact List.Sublist.refl _

theorem prefix_foldl_add (p : SearchPath) (extra : List Path) :
    p.dirs <+: (extra.foldl add p).dirs := by
  induction extra generalizing p with
  | nil => exact List.prefix_rfl
  | cons dir extra ih => exact (prefix_add p dir).trans (ih _)

/-- A directory is left out only behind one that is as good. -/
theorem find?_add (h : ∀ d ∈ p.dirs, d.same dir = true → Q d = Q dir) :
    (p.add dir).dirs.find? Q = (p.dirs ++ [dir]).find? Q := by
  unfold add
  split
  · rename_i hthere
    obtain ⟨d, hd, hsame⟩ := List.any_eq_true.mp hthere
    rw [List.find?_append]
    cases hfound : p.dirs.find? Q with
    | some found => rfl
    | none =>
      -- the other spelling of the directory has been looked at in vain
      have hrefused : ¬ Q dir = true := by
        rw [← h d hd hsame]
        exact List.find?_eq_none.mp hfound d hd
      rw [Option.none_or, List.find?_singleton, if_neg hrefused]
  · rfl

theorem find?_foldl_add
    (h : ∀ d ∈ p.dirs ++ extra, ∀ e ∈ p.dirs ++ extra, d.same e = true → Q d = Q e) :
    (extra.foldl add p).dirs.find? Q = (p.dirs ++ extra).find? Q := by
  induction extra generalizing p with
  | nil => rw [List.foldl_nil, List.append_nil]
  | cons dir extra ih =>
    rw [List.append_cons] at h ⊢
    have hkept : ((p.add dir).dirs ++ extra).Sublist (p.dirs ++ [dir] ++ extra) :=
      (add_sublist p dir).append_right extra
    have hstep : (p.add dir).dirs.find? Q = (p.dirs ++ [dir]).find? Q :=
      find?_add fun d hd hsame => h d (by simp [hd]) dir (by simp) hsame
    rw [List.foldl_cons, ih fun d hd e he => h d (hkept.subset hd) e (hkept.subset he),
      List.find?_append, hstep, ← List.find?_append]

end Adding

section Lookup

variable {p : SearchPath} {t : FileTree} {start : Location} {d e : Path} {name typed : String}

theorem find?_part (h : Path.Part name) : p.find? t start name =
    (p.dirs.find? fun dir => t.isExecutable start (dir.join name)).map (·.join name) := by
  rw [find?, if_neg (by simpa using ⟨h.1, h.2⟩), List.find?_map]
  rfl

theorem find?_no_part (h : ¬ Path.Part name) : p.find? t start name = none := by
  cases hfound : p.find? t start name with
  | none => rfl
  | some path => exact absurd (find?_eq_some hfound).1 h

theorem mem_candidates_iff : name ∈ p.candidates t start typed ↔
    (p.dirs.find? fun dir => decide (name ∈ candidatesIn t start typed dir)).isSome = true := by
  simp [candidates, Names.mem_ofList]

theorem candidatesIn_same (ht : t.Spelled) (h : t.SameDirectory start d e) :
    candidatesIn t start typed d = candidatesIn t start typed e := by
  unfold candidatesIn
  rw [h.listing]
  refine List.filter_congr fun name hname => ?_
  rw [h.executable name (ht.listing hname)]

/-- Leaving out the further directories that are there changes neither what is found
nor what is offered, if equal paths name the same directory: those do that leave room
for a name. What the environment has comes first in any case. -/
theorem ofEnvironment_plain (path : Option String) (extra : List Path) (t : FileTree)
    (start : Location) (ht : t.Spelled) :
    let listed := (path.map split).getD []
    let p := ofEnvironment path extra
    let plain : SearchPath := ⟨listed ++ extra⟩
    ((∀ d ∈ plain.dirs, ∀ e ∈ plain.dirs, d.same e = true → t.SameDirectory start d e) →
      (∀ name, p.find? t start name = plain.find? t start name) ∧
      ∀ typed, p.candidates t start typed = plain.candidates t start typed) ∧
    (∀ name found, (⟨listed⟩ : SearchPath).find? t start name = some found →
      p.find? t start name = some found) ∧
    (t.Grounded start → ∀ d e : Path, d.same e = true → FileTree.LeavesRoom d →
      FileTree.LeavesRoom e → t.SameDirectory start d e) := by
  intro listed p plain
  refine ⟨fun hsame => ⟨fun name => ?_, fun typed => ?_⟩, fun name found hfound => ?_,
    fun hg d e => FileTree.sameDirectory_of_same hg⟩
  · by_cases hname : Path.Part name
    · rw [find?_part hname, find?_part hname]
      congr 1
      exact find?_foldl_add fun d hd e he h => (hsame d hd e he h).executable name hname
    · rw [find?_no_part hname, find?_no_part hname]
  · refine Names.eq_of_mem_iff (Names.ofList_sorted _) (Names.ofList_sorted _) fun name => ?_
    have hfirst : p.dirs.find? (fun dir => decide (name ∈ candidatesIn t start typed dir)) =
        plain.dirs.find? fun dir => decide (name ∈ candidatesIn t start typed dir) :=
      find?_foldl_add fun d hd e he h => by rw [candidatesIn_same ht (hsame d hd e he h)]
    exact mem_candidates_iff.trans (hfirst ▸ mem_candidates_iff.symm)
  · have hname := (find?_eq_some hfound).1
    rw [find?_part hname, Option.map_eq_some_iff] at hfound ⊢
    obtain ⟨dir, hdir, hjoin⟩ := hfound
    exact ⟨dir, (prefix_foldl_add ⟨listed⟩ extra).find?_eq_some hdir, hjoin⟩

/-- A dot and a slash at the end make two spellings of the environment's only directory. -/
theorem ofEnvironment_plain_spellings :
    let t : FileTree := ⟨[(["a"], .directory), (["a", "tool"], .file [] 0o755)]⟩
    let extra : List Path := [⟨"/a"⟩, ⟨"/b"⟩, ⟨"//a/"⟩]
    let p := ofEnvironment (some "/a/.") extra
    let plain : SearchPath := ⟨(((some "/a/.").map split).getD [] ++ extra)⟩
    t.Spelled ∧ t.Grounded [] ∧ p.dirs = [⟨"/a/."⟩, ⟨"/b"⟩] ∧
      (∀ d ∈ plain.dirs, ∀ e ∈ plain.dirs, d.same e = true → t.SameDirectory [] d e) ∧
      p.find? t [] "tool" = plain.find? t [] "tool" ∧
      p.candidates t [] "to" = plain.candidates t [] "to" ∧
      (⟨[⟨"/a/."⟩]⟩ : SearchPath).find? t [] "tool" = some ⟨"/a/./tool"⟩ ∧
      p.find? t [] "tool" = some ⟨"/a/./tool"⟩ := by
  intro t extra p plain
  have ht : t.Spelled := by decide +kernel
  obtain ⟨hplain, hlisted, hspellings⟩ := ofEnvironment_plain (some "/a/.") extra t [] ht
  have hroom : ∀ d ∈ plain.dirs, FileTree.LeavesRoom d := by decide +kernel
  have hsame : ∀ d ∈ plain.dirs, ∀ e ∈ plain.dirs, d.same e = true → t.SameDirectory [] d e :=
    fun d hd e he h => hspellings .root d e h (hroom d hd) (hroom e he)
  have hthere : t.isExecutable [] ⟨"/a/./tool"⟩ = true := by
    have hwalkable : FileTree.Walkable ⟨"/a/./tool"⟩ :=
      ⟨by decide +kernel, by decide, by decide +kernel⟩
    have hsteps : (Path.mk "/a/./tool").steps = ["a", ".", "tool"] := by decide +kernel
    have hfile : t.node? ([] ++ ["a"] ++ ["tool"]) = some (.file [] 0o755) := rfl
    rw [FileTree.isExecutable, FileTree.look, hwalkable.follow, ite_self, hsteps,
      FileTree.walk_directory ⟨by decide, by decide, by decide, by decide +kernel⟩ rfl,
      FileTree.walk, if_pos rfl,
      FileTree.walk_leaf ⟨by decide, by decide, by decide +kernel, by decide +kernel⟩ hfile
        (by decide) (by intro target h; cases h)]
    decide +kernel
  have hjoin : (Path.mk "/a/.").join "tool" = ⟨"/a/./tool"⟩ := by decide +kernel
  have hfound : (⟨[⟨"/a/."⟩]⟩ : SearchPath).find? t [] "tool" = some ⟨"/a/./tool"⟩ := by
    rw [find?, if_neg (by decide +kernel), List.map_singleton, hjoin, List.find?_cons, hthere]
  have hsplit : ((some "/a/.").map split).getD [] = [⟨"/a/."⟩] := by decide +kernel
  rw [hsplit] at hlisted
  exact ⟨ht, .root, by decide +kernel, hsame, (hplain hsame).1 "tool", (hplain hsame).2 "to",
    hfound, hlisted "tool" _ hfound⟩

end Lookup

end SearchPath

end LineShell
