import LineShell.Proofs.Children

/-!
# Folded paths

Folding an absolute path leaves the root and proper names: no part of it is a
dot or a step up. Such a path is folded already.
-/

set_option autoImplicit false

namespace LineShell.Path

structure Proper (name : String) : Prop extends Part name where
  notHere : name ≠ "."
  notUp : name ≠ ".."

def ofNames (names : List String) : Path := ⟨"/" ++ "/".intercalate names⟩

section Names

variable {p : Path} {names acc : List String}

theorem Proper.not_idle {name : String} (h : Proper name) : isIdle name = false := by
  simp [isIdle, h.nonempty, h.notHere]

theorem ofNames_isAbsolute (names : List String) : (ofNames names).isAbsolute = true :=
  location_isAbsolute names

theorem ofNames_parts (h : ∀ name ∈ names, Proper name) :
    (ofNames names).parts = "" :: if names = [] then [""] else names := by
  have hroot : (ofNames names).parts =
      "" :: (cutAt '/' (['/'].intercalate (names.map String.toList))).map String.ofList := by
    rw [parts, ofNames, location_text, cutAt, if_pos rfl]
    rfl
  rw [hroot]
  by_cases hnames : names = []
  · subst hnames
    rfl
  · rw [if_neg hnames, cutAt_intercalate (by simpa using hnames)
      (by simpa using fun name hname => (h name hname).noSlash)]
    simp [Function.comp_def]

theorem ofNames_components (h : ∀ name ∈ names, Proper name) :
    (ofNames names).components = .root :: names.map .name := by
  have hkept : (if names = [] then [""] else names).filter (fun s => !isIdle s) = names := by
    split
    · rename_i hnames
      subst hnames
      rfl
    · rw [List.filter_eq_self]
      intro name hname
      simp [(h name hname).not_idle]
  rw [components, ofNames_parts h]
  simp only [ofNames_isAbsolute, if_true, hkept]
  rw [List.cons_inj_right, List.map_inj_left]
  intro name hname
  rw [if_neg (h name hname).notUp]

theorem foldNames_names (names acc : List String) :
    (names.map Component.name).foldl foldNames acc = acc ++ names := by
  induction names generalizing acc with
  | nil => simp
  | cons name names ih =>
    rw [List.map_cons, List.foldl_cons, ih]
    simp [foldNames]

theorem components_proper (h : p.isAbsolute = true) :
    ∀ name, .name name ∈ p.components → Proper name := by
  intro name hname
  obtain ⟨rest, hparts⟩ := isAbsolute_parts h
  simp only [components, hparts, h, if_true, List.mem_cons, List.mem_map, List.mem_filter,
    reduceCtorEq, false_or] at hname
  obtain ⟨part, ⟨hmem, hidle⟩, hstep⟩ := hname
  split at hstep
  · cases hstep
  rename_i hup
  cases hstep
  have hpart : name ∈ p.parts := by
    rw [hparts]
    exact List.mem_cons_of_mem _ hmem
  obtain ⟨cs, hcs, rfl⟩ := List.mem_map.mp hpart
  simp only [isIdle, Bool.not_eq_true', Bool.or_eq_false_iff, decide_eq_false_iff_not] at hidle
  refine ⟨⟨hidle.1, ?_⟩, hidle.2, hup⟩
  rw [String.toList_ofList]
  exact notMem_cutAt '/' _ cs hcs

theorem foldNames_proper {cs : List Component} (hcs : ∀ name, .name name ∈ cs → Proper name)
    (hacc : ∀ name ∈ acc, Proper name) : ∀ name ∈ cs.foldl foldNames acc, Proper name := by
  induction cs generalizing acc with
  | nil => exact hacc
  | cons c cs ih =>
    apply ih
    · exact fun name hname => hcs name (List.mem_cons_of_mem _ hname)
    · cases c with
      | root => exact hacc
      | here => exact hacc
      | up => exact fun name hname => hacc name (List.dropLast_subset acc hname)
      | name s =>
        intro name hname
        rcases List.mem_append.mp hname with hmem | hmem
        · exact hacc name hmem
        · rw [List.mem_singleton.mp hmem]
          exact hcs s List.mem_cons_self

theorem folded_eq (h : p.isAbsolute = true) :
    ∃ names, (∀ name ∈ names, Proper name) ∧ p.folded = ofNames names := by
  refine ⟨p.components.foldl foldNames [], ?_, ?_⟩
  · exact foldNames_proper (components_proper h) (by simp)
  · rw [folded, if_pos h, ofNames]

end Names

/-- An absolute path that goes down only. -/
structure Straight (p : Path) : Prop where
  absolute : p.isAbsolute = true
  noHere : .here ∉ p.components
  noUp : .up ∉ p.components

theorem straight_iff {p : Path} :
    Straight p ↔ p.isAbsolute = true ∧ .here ∉ p.components ∧ .up ∉ p.components :=
  ⟨fun h => ⟨h.absolute, h.noHere, h.noUp⟩, fun ⟨habsolute, hhere, hup⟩ => ⟨habsolute, hhere, hup⟩⟩

instance (p : Path) : Decidable p.Straight := decidable_of_iff _ straight_iff.symm

/-- A path in whose text no dot and no step up stands for a part. Components leave out
dots inside a path, so this says more. -/
structure Dotless (p : Path) : Prop where
  noHere : "." ∉ p.parts
  noUp : ".." ∉ p.parts

theorem dotless_iff {p : Path} : Dotless p ↔ "." ∉ p.parts ∧ ".." ∉ p.parts :=
  ⟨fun h => ⟨h.noHere, h.noUp⟩, fun ⟨hhere, hup⟩ => ⟨hhere, hup⟩⟩

instance (p : Path) : Decidable p.Dotless := decidable_of_iff _ dotless_iff.symm

section Folded

variable {p : Path}

theorem straight_folded (h : p.isAbsolute = true) : p.folded.Straight := by
  obtain ⟨names, hnames, hfolded⟩ := folded_eq h
  rw [hfolded]
  constructor
  · exact ofNames_isAbsolute names
  · simp [ofNames_components hnames]
  · simp [ofNames_components hnames]

theorem dotless_folded (h : p.isAbsolute = true) : p.folded.Dotless := by
  obtain ⟨names, hnames, hfolded⟩ := folded_eq h
  rw [hfolded, dotless_iff, ofNames_parts hnames]
  split
  · decide
  · simp only [List.mem_cons, not_or]
    exact ⟨⟨by decide, fun hhere => (hnames _ hhere).notHere rfl⟩,
      ⟨by decide, fun hup => (hnames _ hup).notUp rfl⟩⟩

end Folded

end LineShell.Path
