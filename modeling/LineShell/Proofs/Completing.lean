import LineShell.Editor.Line

/-!
# What TAB may add

Whatever a completion makes of a word comes from the candidate names: it adds a
part of one of them, or it lists some of them.
-/

set_option autoImplicit false

namespace LineShell

namespace Names

theorem sharedByAll_prefix {name : String} {names : List String} (h : names.head? = some name) :
    sharedByAll names <+: name.toList := by
  match names with
  | [x] =>
    cases h
    exact List.prefix_rfl
  | x :: y :: rest =>
    cases h
    exact shared_prefix_left _ _

end Names

namespace Completion

theorem mem_matching {name typed : String} {candidates : List String}
    (h : name ∈ matching typed candidates) : name ∈ candidates := by
  rw [matching, Names.mem_ofList, List.mem_filter] at h
  exact h.1

theorem complete_names (typed : String) (candidates : List String) :
    match complete typed candidates with
    | .none => True
    | .unique name => name ∈ candidates
    | .extension text => ∃ name ∈ candidates, text.toList <+: name.toList
    | .ambiguous names => ∀ name ∈ names, name ∈ candidates := by
  have hmem : ∀ name ∈ matching typed candidates, name ∈ candidates := fun _ => mem_matching
  unfold complete
  match hmatching : matching typed candidates with
  | [] => trivial
  | [name] => exact hmem name (by simp [hmatching])
  | name :: other :: rest =>
    rw [hmatching] at hmem
    dsimp only
    by_cases hlonger : typed.toList.length < (Names.sharedByAll (name :: other :: rest)).length
    · rw [if_pos hlonger]
      refine ⟨name, hmem name (by simp), ?_⟩
      rw [String.toList_ofList]
      exact Names.sharedByAll_prefix rfl
    · rw [if_neg hlonger]
      exact hmem

end Completion

namespace Line

/-- A character of one of the names that complete the word before the cursor. -/
def Offered (setup : Setup) (l : Line) (c : Char) : Prop :=
  ∃ name ∈ setup.candidates (String.ofList l.currentWord), c ∈ name.toList

def lists (setup : Setup) (l : Line) : Bool :=
  let typed := String.ofList l.currentWord
  match Completion.complete typed (setup.candidates typed) with
  | .ambiguous _ => l.tabbed && !l.currentWord.isEmpty
  | _ => false

/-- TAB rings the bell, adds a text or lists names. -/
theorem complete_cases (setup : Setup) (l : Line) : ∃ notices,
    (complete setup l = .edit { l with tabbed := true } [bell] notices ∧
      l.lists setup = false) ∨
    (∃ rest, complete setup l = .edit (l.append rest) [rest] notices ∧
      (∀ c ∈ rest, c = ' ' ∨ Offered setup l c) ∧ l.lists setup = false) ∨
    ∃ names : List String, complete setup l = .edit l
        [newline, ("  ".intercalate names).toList, newline, setup.prompt.toList, l.text] notices ∧
      (∀ name ∈ names, ∀ c ∈ name.toList, Offered setup l c) ∧ l.lists setup = true := by
  unfold complete lists
  have hnames := Completion.complete_names (String.ofList l.currentWord)
    (setup.candidates (String.ofList l.currentWord))
  dsimp only
  generalize houtcome : Completion.complete (String.ofList l.currentWord)
    (setup.candidates (String.ofList l.currentWord)) = outcome at hnames ⊢
  by_cases hword : l.currentWord.isEmpty
  · rw [if_pos hword]
    refine ⟨[], .inl ⟨rfl, ?_⟩⟩
    cases outcome <;> simp [hword]
  rw [if_neg hword]
  cases outcome with
  | none => exact ⟨_, .inl ⟨rfl, rfl⟩⟩
  | unique name =>
    refine ⟨_, .inr (.inl ⟨_, rfl, fun c hc => ?_, rfl⟩)⟩
    rcases List.mem_append.mp hc with hname | hblank
    · exact .inr ⟨name, hnames, List.mem_of_mem_drop hname⟩
    · exact .inl (List.mem_singleton.mp hblank)
  | extension text =>
    obtain ⟨name, hname, hprefix⟩ := hnames
    exact ⟨_, .inr (.inl ⟨_, rfl, fun c hc =>
      .inr ⟨name, hname, hprefix.subset (List.mem_of_mem_drop hc)⟩, rfl⟩)⟩
  | ambiguous names =>
    dsimp only
    by_cases htabbed : l.tabbed
    · rw [if_pos htabbed]
      exact ⟨_, .inr (.inr ⟨names, rfl, fun name hname c hc => ⟨name, hnames name hname, hc⟩,
        by simp [htabbed, hword]⟩)⟩
    · rw [if_neg htabbed]
      exact ⟨_, .inl ⟨rfl, by simp [htabbed]⟩⟩

theorem respond_tab (setup : Setup) (l : Line) :
    ∃ next echo notices, l.respond setup .tab = .edit next echo notices := by
  unfold respond
  dsimp only
  split
  · obtain ⟨notices, ⟨hbell, -⟩ | ⟨rest, hrest, -⟩ | ⟨names, hlist, -⟩⟩ := l.complete_cases setup
    · exact ⟨_, _, notices, hbell⟩
    · exact ⟨_, _, notices, hrest⟩
    · exact ⟨_, _, notices, hlist⟩
  · exact ⟨_, _, _, rfl⟩

theorem forall_listing {P : Char → Prop} (hblank : P ' ') {names : List String}
    (h : ∀ name ∈ names, ∀ c ∈ name.toList, P c) : ∀ c ∈ ("  ".intercalate names).toList, P c := by
  match names with
  | [] => simp
  | [name] => simpa using h
  | name :: other :: rest =>
    intro c hc
    rw [String.intercalate_cons_cons, String.toList_append, String.toList_append,
      List.mem_append, List.mem_append] at hc
    rcases hc with (hname | hgap) | hothers
    · exact h name (by simp) c hname
    · rwa [show c = ' ' by simpa using hgap]
    · exact forall_listing hblank (fun name hname => h name (List.mem_cons_of_mem _ hname)) c hothers

end Line

end LineShell
