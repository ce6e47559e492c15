import LineShell.Command
import LineShell.Proofs.Resolution
import Mathlib.Data.List.Forall2

/-!
# What parsing a line leaves behind

Resolving the redirects of a line may make files, and a later redirect of the
line meets the files that an earlier one made. None of this changes an answer:
a line that is parsed once more reads the same and makes nothing.
-/

set_option autoImplicit false

namespace LineShell.Resolved

section Step

variable {σ : Type} {resolve : Redirect.Resolver σ} {r : Resolved σ} {operator target : String}
  {kind : Redirect.Kind}

theorem step_missing :
    step resolve r (.redirect operator kind "") =
      { r with errors := r.errors ++ [.missingTarget operator] } := by
  rw [step, if_pos rfl]

theorem step_ok {found : Redirect.Target} (ht : target ≠ "")
    (h : (resolve kind target r.state).result = .ok found) :
    step resolve r (.redirect operator kind target) =
      { r with
        state := (resolve kind target r.state).state
        notices := r.notices ++ (resolve kind target r.state).notices
        redirects := r.redirects.set kind found } := by
  rw [step, if_neg ht]
  simp only [h]

theorem step_error {e : Redirect.Error} (ht : target ≠ "")
    (h : (resolve kind target r.state).result = .error e) :
    step resolve r (.redirect operator kind target) =
      { r with
        state := (resolve kind target r.state).state
        notices := r.notices ++ (resolve kind target r.state).notices ++
          [⟨.warn, s!"dropping redirect {operator} {target}: {e.message}"⟩]
        errors := r.errors ++ [e] } := by
  rw [step, if_neg ht]
  simp only [h]

theorem step_state (ht : target ≠ "") :
    (step resolve r (.redirect operator kind target)).state =
      (resolve kind target r.state).state := by
  cases h : (resolve kind target r.state).result with
  | ok found => rw [step_ok ht h]
  | error e => rw [step_error ht h]

end Step

open Redirect (resolveIn)

variable {start : Location} {base : Path} {u : FileTree} {r r' : Resolved FileTree}

theorem step_extends (start : Location) (base : Path) (r : Resolved FileTree) (w : Word) :
    r.state.Extends (step (resolveIn start base) r w).state := by
  cases w with
  | arg text => exact .refl _
  | redirect operator kind target =>
    by_cases ht : target = ""
    · subst ht
      rw [step_missing]
      exact .refl _
    · rw [step_state ht]
      exact Redirect.resolveIn_extends start base kind target r.state

theorem run_extends (start : Location) (base : Path) (r : Resolved FileTree)
    (words : List Word) :
    r.state.Extends (words.foldl (step (resolveIn start base)) r).state := by
  induction words generalizing r with
  | nil => exact .refl _
  | cons w words ih => exact (step_extends start base r w).trans (ih _)

/-- A second reading in the tree `u` that has gone as far as the first. -/
structure Repeats (u : FileTree) (r r' : Resolved FileTree) : Prop where
  texts : r'.texts = r.texts
  redirects : r'.redirects = r.redirects
  errors : List.Forall₂ Redirect.Error.Alike r.errors r'.errors
  state : r'.state = u

theorem Repeats.command? (h : Repeats u r r') : r'.command? = r.command? := by
  rw [Resolved.command?, Resolved.command?, h.texts, h.redirects]

theorem Repeats.messages (h : Repeats u r r') :
    r'.errors.map (·.message) = r.errors.map (·.message) := by
  have herrors := h.errors
  generalize r.errors = errors at herrors
  generalize r'.errors = errors' at herrors
  induction herrors with
  | nil => rfl
  | cons halike _ ih => rw [List.map_cons, List.map_cons, halike.message, ih]

theorem step_repeats (ha : r.state.Anchored start base) (w : Word)
    (hx : (step (resolveIn start base) r w).state.Extends u) (h : Repeats u r r') :
    Repeats u (step (resolveIn start base) r w) (step (resolveIn start base) r' w) := by
  cases w with
  | arg text =>
    constructor
    · show r'.texts ++ [text] = r.texts ++ [text]
      rw [h.texts]
    · exact h.redirects
    · exact h.errors
    · exact h.state
  | redirect operator kind target =>
    by_cases ht : target = ""
    · subst ht
      rw [step_missing, step_missing]
      constructor
      · exact h.texts
      · exact h.redirects
      · exact List.rel_append h.errors (.cons (.missingTarget operator) .nil)
      · exact h.state
    rw [step_state ht] at hx
    obtain ⟨hsame, hstate⟩ := Redirect.resolveIn_again ha hx
    rw [← h.state] at hsame hstate
    generalize hfirst : (resolveIn start base kind target r.state).result = first at hsame
    generalize hsecond : (resolveIn start base kind target r'.state).result = second at hsame
    cases hsame with
    | ok found =>
      rw [step_ok ht hfirst, step_ok ht hsecond]
      constructor
      · exact h.texts
      · show r'.redirects.set kind found = r.redirects.set kind found
        rw [h.redirects]
      · exact h.errors
      · exact hstate.trans h.state
    | error halike =>
      rw [step_error ht hfirst, step_error ht hsecond]
      constructor
      · exact h.texts
      · exact h.redirects
      · exact List.rel_append h.errors (.cons halike .nil)
      · exact hstate.trans h.state

theorem run_repeats (words : List Word) (ha : r.state.Anchored start base)
    (hx : (words.foldl (step (resolveIn start base)) r).state.Extends u) (h : Repeats u r r') :
    Repeats u (words.foldl (step (resolveIn start base)) r)
      (words.foldl (step (resolveIn start base)) r') := by
  induction words generalizing r r' with
  | nil => exact h
  | cons w words ih =>
    have hstep := step_extends start base r w
    have hrest := run_extends start base (step (resolveIn start base) r w) words
    apply ih
    · exact ha.grown hstep
    · exact hx
    · exact step_repeats ha w (hrest.trans hx) h

/-- A word changes the tree only as a truncating redirect that is kept. -/
theorem step_made (start : Location) (base : Path) (r : Resolved FileTree) (w : Word) :
    (step (resolveIn start base) r w).state = r.state ∨
      ∃ operator kind target, w = .redirect operator kind target ∧ kind.mode = .truncate ∧
        (step (resolveIn start base) r w).errors = r.errors ∧
        r.state.create start (base.join target) =
          .ok (step (resolveIn start base) r w).state := by
  cases w with
  | arg text => exact .inl rfl
  | redirect operator kind target =>
    by_cases ht : target = ""
    · subst ht
      rw [step_missing]
      exact .inl rfl
    rcases Redirect.resolveIn_state start base kind target r.state with
      heq | ⟨hmode, hmade, found, hfound⟩
    · rw [step_state ht]
      exact .inl heq
    · have herrors : (step (resolveIn start base) r (.redirect operator kind target)).errors =
          r.errors := by
        rw [step_ok ht hfound]
      have hcreate : r.state.create start (base.join target) =
          .ok (step (resolveIn start base) r (.redirect operator kind target)).state := by
        rw [step_state ht]
        exact hmade
      exact .inr ⟨operator, kind, target, rfl, hmode, herrors, hcreate⟩

theorem step_added {loc : Location} {node : Node} (ha : r.state.Anchored start base) (w : Word)
    (hnone : r.state.node? loc = none)
    (hsome : (step (resolveIn start base) r w).state.node? loc = some node)
    (hx : (step (resolveIn start base) r w).state.Extends u) :
    ∃ operator kind target, w = .redirect operator kind target ∧ kind.mode = .truncate ∧
      u.look start (base.join target) = .ok (loc, .file [] FileTree.newFileMode) := by
  rcases step_made start base r w with heq | ⟨operator, kind, target, hw, hmode, _, hmade⟩
  · rw [heq, hnone] at hsome
    cases hsome
  · obtain ⟨_, spot, hput, hlook⟩ := FileTree.create_after_ok hmade hx (ha.join target)
    have hspot : loc = spot := by
      by_contra hne
      rw [hput, FileTree.node?_put_ne hne, hnone] at hsome
      cases hsome
    rw [← hspot] at hlook
    exact ⟨operator, kind, target, hw, hmode, hlook⟩

theorem run_added {loc : Location} {node : Node} (words : List Word)
    (ha : r.state.Anchored start base) (hnone : r.state.node? loc = none)
    (hsome : (words.foldl (step (resolveIn start base)) r).state.node? loc = some node)
    (hx : (words.foldl (step (resolveIn start base)) r).state.Extends u) :
    ∃ before operator kind target after,
      words = before ++ .redirect operator kind target :: after ∧ kind.mode = .truncate ∧
        u.look start (base.join target) = .ok (loc, .file [] FileTree.newFileMode) := by
  induction words generalizing r with
  | nil =>
    rw [List.foldl_nil, hnone] at hsome
    cases hsome
  | cons w words ih =>
    have hstep := step_extends start base r w
    have hrest := run_extends start base (step (resolveIn start base) r w) words
    cases hnow : (step (resolveIn start base) r w).state.node? loc with
    | none =>
      obtain ⟨before, operator, kind, target, after, hwords, hmade⟩ :=
        ih (ha.grown hstep) hnow hsome hx
      have hsplit : w :: words = (w :: before) ++ .redirect operator kind target :: after := by
        rw [hwords, List.cons_append]
      exact ⟨w :: before, operator, kind, target, after, hsplit, hmade⟩
    | some old =>
      obtain ⟨operator, kind, target, hw, hmade⟩ :=
        step_added ha w hnone hnow (hrest.trans hx)
      have hsplit : w :: words = [] ++ .redirect operator kind target :: words := by
        rw [hw, List.nil_append]
      exact ⟨[], operator, kind, target, words, hsplit, hmade⟩

/-- Parsing a line keeps everything in the tree. What it adds are empty files,
each of which a truncating redirect of the line names; a redirect that appends
or that is dropped adds nothing. Parsing the line once more gives the same
command, errors of the same kinds and messages, and changes nothing. -/
theorem ofLine_resolveIn (start : Location) (base : Path) (tree : FileTree) (line : String)
    (hbase : tree.Anchored start base) :
    let resolve := resolveIn start base
    let parsed := ofLine resolve tree line
    let again := ofLine resolve parsed.state line
    (∀ loc node, tree.node? loc = some node → parsed.state.node? loc = some node) ∧
    (∀ loc node, tree.node? loc = none → parsed.state.node? loc = some node →
      node = .file [] FileTree.newFileMode ∧
      ∃ before operator kind target after,
        splitWords line = before ++ .redirect operator kind target :: after ∧
        kind.mode = .truncate ∧
        parsed.state.look start (base.join target) = .ok (loc, node)) ∧
    (∀ before operator kind target after,
      splitWords line = before ++ .redirect operator kind target :: after →
      let earlier := ofWords resolve tree before
      let later := ofWords resolve tree (before ++ [.redirect operator kind target])
      kind.mode = .append ∨ later.errors ≠ earlier.errors → later.state = earlier.state) ∧
    again.command? = parsed.command? ∧
    List.Forall₂ Redirect.Error.Alike parsed.errors again.errors ∧
    again.errors.map (·.message) = parsed.errors.map (·.message) ∧
    again.state = parsed.state := by
  intro resolve parsed again
  have hgrow : tree.Extends parsed.state :=
    run_extends start base (Resolved.start tree) (splitWords line)
  have hagain : Repeats parsed.state parsed again := by
    apply run_repeats (splitWords line)
    · exact hbase
    · exact .refl _
    · exact ⟨rfl, rfl, .nil, rfl⟩
  refine ⟨hgrow.kept, ?_, ?_, hagain.command?, hagain.errors,
    hagain.messages, hagain.state⟩
  · intro loc node hnone hsome
    have hfile := hgrow.added loc node hnone hsome
    constructor
    · exact hfile
    · rw [hfile]
      exact run_added (splitWords line) hbase hnone hsome (.refl _)
  · intro before operator kind target after _ earlier later hkind
    have hlater : later = step resolve earlier (.redirect operator kind target) := by
      simp only [later, earlier, ofWords, List.foldl_append, List.foldl_cons, List.foldl_nil]
    rcases step_made start base earlier (.redirect operator kind target) with
      heq | ⟨_, _, _, hw, hmode, herrors, _⟩
    · rw [hlater]
      exact heq
    · cases hw
      rw [hlater] at hkind
      rcases hkind with happend | hdropped
      · rw [hmode] at happend
        cases happend
      · exact absurd herrors hdropped

end LineShell.Resolved
