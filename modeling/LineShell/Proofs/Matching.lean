import LineShell.Completion
import LineShell.Proofs.Ordering
import Mathlib.Data.List.Sort
import Mathlib.Data.Set.Subsingleton

/-!
# What a completion finds

The names that begin with the typed text decide the outcome: none, one name, a
longer text that all of them begin with, or all of them in the order of their
bytes. How the candidates come, in which order and how often, does not matter.
-/

set_option autoImplicit false

namespace LineShell

namespace Names

theorem prefix_shared_iff {text as bs : List Char} :
    text <+: shared as bs ↔ text <+: as ∧ text <+: bs := by
  induction text generalizing as bs with
  | nil => simp
  | cons c text ih =>
    match as, bs with
    | [], _ => simp [shared]
    | _ :: _, [] => simp [shared]
    | a :: as, b :: bs =>
      by_cases h : a = b
      · subst h
        simp only [shared, if_true, List.cons_prefix_cons, ih]
        exact and_and_left
      · simp only [shared, if_neg h, List.cons_prefix_cons, List.prefix_nil, reduceCtorEq,
          false_iff, not_and]
        rintro ⟨rfl, -⟩ hb
        exact absurd hb h

/-- The shared text of names is the longest that all of them begin with. -/
theorem prefix_sharedByAll_iff {text : List Char} {names : List String} (h : names ≠ []) :
    text <+: sharedByAll names ↔ ∀ name ∈ names, text <+: name.toList := by
  match names with
  | [name] => simp [sharedByAll]
  | name :: other :: rest =>
    rw [sharedByAll, prefix_shared_iff, prefix_sharedByAll_iff (List.cons_ne_nil _ _)]
    exact (List.forall_mem_cons (p := fun name : String => text <+: name.toList)).symm

theorem eq_of_mem_iff {as bs : List String} (has : as.Pairwise (· < ·))
    (hbs : bs.Pairwise (· < ·)) (h : ∀ name, name ∈ as ↔ name ∈ bs) : as = bs :=
  has.eq_of_mem_iff hbs h

end Names

namespace Completion

def namesFor (typed : String) (candidates : List String) : Set String :=
  {name | name ∈ candidates ∧ typed.toList <+: name.toList}

structure IsCommon (names : Set String) (text : String) : Prop where
  begins : ∀ name ∈ names, text.toList <+: name.toList
  longest : ∀ other : List Char, (∀ name ∈ names, other <+: name.toList) →
    other.length ≤ text.toList.length

theorem IsCommon.unique {names : Set String} {text other : String} (hnames : names.Nonempty)
    (h : IsCommon names text) (h' : IsCommon names other) : text = other := by
  obtain ⟨name, hname⟩ := hnames
  have hbegins := List.prefix_of_prefix_length_le (h.begins name hname) (h'.begins name hname)
    (h'.longest _ h.begins)
  exact String.toList_inj.mp (hbegins.eq_of_length_le (h.longest _ h'.begins))

def Fits (typed : String) (names : Set String) : Outcome → Prop
  | .none => names = ∅
  | .unique name => names = {name}
  | .extension text =>
    names.Nontrivial ∧ IsCommon names text ∧ typed.toList.length < text.toList.length
  | .ambiguous listed =>
    names.Nontrivial ∧ IsCommon names typed ∧
      listed.Pairwise (fun a b => Utf8.ofString a < Utf8.ofString b) ∧
      ∀ name, name ∈ listed ↔ name ∈ names

section Matching

variable {typed text : String} {candidates : List String}

theorem mem_matching_iff {name : String} :
    name ∈ matching typed candidates ↔ name ∈ namesFor typed candidates := by
  rw [matching, Names.mem_ofList, List.mem_filter, startsWith, List.isPrefixOf_iff_prefix]
  rfl

variable (typed candidates) in
theorem matching_sorted : (matching typed candidates).Pairwise (· < ·) := Names.ofList_sorted _

theorem matching_eq {listed : List String} (hsorted : listed.Pairwise (· < ·))
    (hmem : ∀ name, name ∈ listed ↔ name ∈ namesFor typed candidates) :
    matching typed candidates = listed :=
  Names.eq_of_mem_iff (matching_sorted _ _) hsorted fun name => mem_matching_iff.trans (hmem name).symm

theorem namesFor_nontrivial_iff :
    (namesFor typed candidates).Nontrivial ↔
      ∃ name other rest, matching typed candidates = name :: other :: rest := by
  constructor
  · rintro ⟨a, ha, b, hb, hne⟩
    rw [← mem_matching_iff] at ha hb
    match hmatching : matching typed candidates with
    | [] => simp [hmatching] at ha
    | [name] =>
      rw [hmatching, List.mem_singleton] at ha hb
      exact absurd (ha.trans hb.symm) hne
    | name :: other :: rest => exact ⟨name, other, rest, rfl⟩
  · rintro ⟨name, other, rest, hmatching⟩
    have hlt : name < other := by
      have hsorted := matching_sorted typed candidates
      rw [hmatching] at hsorted
      exact List.rel_of_pairwise_cons hsorted (by simp)
    refine ⟨name, mem_matching_iff.mp (by simp [hmatching]), other,
      mem_matching_iff.mp (by simp [hmatching]), ?_⟩
    rintro rfl
    exact String.lt_irrefl _ hlt

theorem prefix_common_iff {other : List Char} (hne : matching typed candidates ≠ []) :
    other <+: Names.sharedByAll (matching typed candidates) ↔
      ∀ name ∈ namesFor typed candidates, other <+: name.toList := by
  rw [Names.prefix_sharedByAll_iff hne]
  exact forall_congr' fun name => by rw [mem_matching_iff]

theorem typed_prefix_common (hne : matching typed candidates ≠ []) :
    typed.toList <+: Names.sharedByAll (matching typed candidates) :=
  (prefix_common_iff hne).mpr fun _ hname => hname.2

theorem isCommon_iff (hne : matching typed candidates ≠ []) :
    IsCommon (namesFor typed candidates) text ↔
      text.toList = Names.sharedByAll (matching typed candidates) := by
  constructor
  · rintro ⟨hbegins, hlongest⟩
    have hshared := (prefix_common_iff hne).mp List.prefix_rfl
    exact ((prefix_common_iff hne).mpr hbegins).eq_of_length_le (hlongest _ hshared)
  · intro htext
    refine ⟨(prefix_common_iff hne).mp (htext ▸ List.prefix_rfl), fun other hother => ?_⟩
    rw [htext]
    exact ((prefix_common_iff hne).mpr hother).length_le

end Matching

variable (typed : String) (candidates : List String)

theorem complete_fits : Fits typed (namesFor typed candidates) (complete typed candidates) := by
  unfold complete
  match hmatching : matching typed candidates with
  | [] =>
    refine Set.eq_empty_iff_forall_notMem.mpr fun name hname => ?_
    simp [← mem_matching_iff, hmatching] at hname
  | [name] =>
    refine Set.eq_singleton_iff_unique_mem.mpr ⟨mem_matching_iff.mp (by simp [hmatching]), ?_⟩
    intro other hother
    simpa [← mem_matching_iff, hmatching] using hother
  | name :: other :: rest =>
    have hne : matching typed candidates ≠ [] := by simp [hmatching]
    have hnames := namesFor_nontrivial_iff.mpr ⟨name, other, rest, hmatching⟩
    have htyped := typed_prefix_common hne
    have hcommon : ∀ text, IsCommon (namesFor typed candidates) text ↔
        text.toList = Names.sharedByAll (matching typed candidates) := fun _ => isCommon_iff hne
    have hsorted := matching_sorted typed candidates
    have hmem : ∀ name, name ∈ matching typed candidates ↔ name ∈ namesFor typed candidates :=
      fun _ => mem_matching_iff
    rw [hmatching] at htyped hcommon hsorted hmem
    dsimp only
    split
    · rename_i hlonger
      exact ⟨hnames, (hcommon _).mpr String.toList_ofList, by rwa [String.toList_ofList]⟩
    · rename_i hshort
      have hall := htyped.eq_of_length_le (Nat.not_lt.mp hshort)
      refine ⟨hnames, (hcommon typed).mpr hall, ?_, hmem⟩
      exact hsorted.imp Utf8.ofString_lt_iff.mpr

theorem complete_eq_of_fits {outcome : Outcome}
    (h : Fits typed (namesFor typed candidates) outcome) : complete typed candidates = outcome := by
  cases outcome with
  | none =>
    have hnames : namesFor typed candidates = ∅ := h
    have hmatching : matching typed candidates = [] :=
      matching_eq .nil fun name => by simp [hnames]
    simp [complete, hmatching]
  | unique name =>
    have hnames : namesFor typed candidates = {name} := h
    have hmatching : matching typed candidates = [name] :=
      matching_eq (List.pairwise_singleton _ _) fun other => by simp [hnames]
    simp [complete, hmatching]
  | extension text =>
    obtain ⟨hnames, hcommon, hlonger⟩ := h
    obtain ⟨name, other, rest, hmatching⟩ := namesFor_nontrivial_iff.mp hnames
    have htext := (isCommon_iff (by simp [hmatching])).mp hcommon
    rw [hmatching] at htext
    simp only [complete, hmatching, ← htext, if_pos hlonger, String.ofList_toList]
  | ambiguous listed =>
    obtain ⟨hnames, hcommon, hsorted, hmem⟩ := h
    obtain ⟨name, other, rest, hmatching⟩ := namesFor_nontrivial_iff.mp hnames
    have htext := (isCommon_iff (by simp [hmatching])).mp hcommon
    have hlisted := matching_eq (hsorted.imp Utf8.ofString_lt_iff.mp) hmem
    rw [hmatching] at htext
    simp only [complete, hmatching, ← htext, Nat.lt_irrefl, if_false]
    rw [← hlisted, hmatching]

/-- The outcome is the one that fits the names that begin with the typed text,
from whatever sources they come. -/
theorem complete_iff_fits :
    (∀ outcome, complete typed candidates = outcome ↔
      Fits typed (namesFor typed candidates) outcome) ∧
    ∀ sources : List (List String),
      namesFor typed sources.flatten = namesFor typed candidates →
      complete typed sources.flatten = complete typed candidates := by
  have hfits := complete_fits typed candidates
  refine ⟨fun outcome => ⟨?_, complete_eq_of_fits typed candidates⟩, fun sources hnames => ?_⟩
  · rintro rfl
    exact hfits
  · rw [← hnames] at hfits
    exact complete_eq_of_fits typed sources.flatten hfits

/-- Two sources that both have a name, and one of them a name that does not begin so. -/
theorem complete_iff_fits_sources :
    let candidates := ["exit", "echo"]
    let sources := [["echo"], ["type", "exit", "echo"]]
    namesFor "e" sources.flatten = namesFor "e" candidates ∧
      complete "e" sources.flatten = complete "e" candidates ∧
      complete "e" candidates = .ambiguous ["echo", "exit"] := by
  intro candidates sources
  have hnames : namesFor "e" sources.flatten = namesFor "e" candidates := by
    ext name
    simp only [namesFor, sources, candidates, Set.mem_ofPred_eq, List.flatten_cons, List.flatten_nil,
      List.append_nil, List.cons_append, List.nil_append, List.mem_cons, List.not_mem_nil, or_false]
    constructor
    · rintro ⟨rfl | rfl | rfl | rfl, hbegins⟩
      · exact ⟨.inr rfl, hbegins⟩
      · exact absurd hbegins (by decide)
      · exact ⟨.inl rfl, hbegins⟩
      · exact ⟨.inr rfl, hbegins⟩
    · rintro ⟨rfl | rfl, hbegins⟩
      · exact ⟨.inr (.inr (.inl rfl)), hbegins⟩
      · exact ⟨.inl rfl, hbegins⟩
  exact ⟨hnames, (complete_iff_fits "e" candidates).2 sources hnames, by decide +kernel⟩

end Completion

end LineShell
