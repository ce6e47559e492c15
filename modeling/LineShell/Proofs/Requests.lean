import LineShell.Proofs.Parsing

/-!
# What a line asks of its resolver

The words of a line that are no redirects are its texts, whatever is answered.
Each redirect with a target is one request, and the requests go out in the order
of the words, each in the state that the one before left. Of the answers for one
kind the last good one stands.
-/

set_option autoImplicit false

namespace LineShell

namespace Word

def text? : Word → Option String
  | .arg text => some text
  | .redirect _ _ _ => none

/-- A redirect without a target asks for nothing. -/
def request? : Word → Option (Redirect.Kind × String)
  | .arg _ => none
  | .redirect _ kind target => if target = "" then none else some (kind, target)

def kind? : Word → Option Redirect.Kind
  | .arg _ => none
  | .redirect _ kind _ => some kind

theorem mem_texts_iff {text : String} {words : List Word} :
    text ∈ words.filterMap text? ↔ .arg text ∈ words := by
  rw [List.mem_filterMap]
  constructor
  · rintro ⟨w, hw, htext⟩
    cases w with
    | arg other =>
      cases htext
      exact hw
    | redirect operator kind target => cases htext
  · intro hw
    exact ⟨.arg text, hw, rfl⟩

end Word

namespace Redirect

abbrev Verdict := Kind × Except Error Target

def Verdict.error? (v : Verdict) : Option Error :=
  match v.2 with
  | .ok _ => none
  | .error e => some e

/-- The target is the last one that was found for its kind. -/
def Prevails (verdicts : List Verdict) (k : Kind) (found : Target) : Prop :=
  ∃ before after, verdicts = before ++ (k, .ok found) :: after ∧ ∀ other, (k, .ok other) ∉ after

variable {σ : Type}

/-- Answers as another resolver does and keeps what was asked. -/
def recording (resolve : Resolver σ) : Resolver (σ × List (Kind × String)) :=
  fun kind target (s, asked) =>
    let answer := resolve kind target s
    ⟨answer.result, (answer.state, asked ++ [(kind, target)]), answer.notices⟩

end Redirect

namespace Resolved
open Redirect (Resolver Verdict Prevails recording Table)

variable {σ : Type}

/-- What becomes of the redirects among words, in their order, when the first
request meets this state. -/
def verdicts (resolve : Resolver σ) : σ → List Word → List Verdict
  | _, [] => []
  | s, .arg _ :: words => verdicts resolve s words
  | s, .redirect operator kind target :: words =>
    if target = "" then (kind, .error (.missingTarget operator)) :: verdicts resolve s words
    else
      let answer := resolve kind target s
      (kind, answer.result) :: verdicts resolve answer.state words

def enter (table : Table) : List Verdict → Table
  | [] => table
  | (k, .ok found) :: verdicts => enter (table.set k found) verdicts
  | (_, .error _) :: verdicts => enter table verdicts

def inState {τ : Type} (r : Resolved σ) (s : τ) : Resolved τ :=
  ⟨r.texts, r.redirects, r.errors, r.notices, s⟩

/-! ## One word after another -/

section Run

variable {resolve : Resolver σ}

theorem enter_append (table : Table) (earlier later : List Verdict) :
    enter table (earlier ++ later) = enter (enter table earlier) later := by
  induction earlier generalizing table with
  | nil => rfl
  | cons v earlier ih =>
    obtain ⟨k, found | e⟩ := v
    · exact ih table
    · exact ih (table.set k _)

theorem verdicts_cons (r : Resolved σ) (w : Word) (words : List Word) :
    verdicts resolve r.state (w :: words) =
      verdicts resolve r.state [w] ++ verdicts resolve (step resolve r w).state words := by
  cases w with
  | arg text => rfl
  | redirect operator kind target =>
    by_cases ht : target = ""
    · subst ht
      rw [step_missing]
      rfl
    · rw [step_state ht]
      simp only [verdicts, if_neg ht, List.singleton_append]

theorem step_verdict (r : Resolved σ) (w : Word) :
    (step resolve r w).texts = r.texts ++ w.text?.toList ∧
      (step resolve r w).errors =
        r.errors ++ (verdicts resolve r.state [w]).filterMap Verdict.error? ∧
      (step resolve r w).redirects = enter r.redirects (verdicts resolve r.state [w]) := by
  cases w with
  | arg text => exact ⟨rfl, (List.append_nil _).symm, rfl⟩
  | redirect operator kind target =>
    by_cases ht : target = ""
    · subst ht
      rw [step_missing]
      exact ⟨(List.append_nil _).symm, rfl, rfl⟩
    simp only [verdicts, if_neg ht]
    cases hanswer : (resolve kind target r.state).result with
    | ok found =>
      rw [step_ok ht hanswer]
      exact ⟨(List.append_nil _).symm, (List.append_nil _).symm, rfl⟩
    | error e =>
      rw [step_error ht hanswer]
      exact ⟨(List.append_nil _).symm, rfl, rfl⟩

theorem verdicts_kinds (s : σ) (words : List Word) :
    (verdicts resolve s words).map Prod.fst = words.filterMap Word.kind? := by
  fun_induction verdicts resolve s words with
  | case1 => rfl
  | case2 s text words ih => exact ih
  | case3 s operator kind words ih => exact congrArg (kind :: ·) ih
  | case4 s operator kind target words ht answer ih => exact congrArg (kind :: ·) ih

theorem run_verdicts (r : Resolved σ) (words : List Word) :
    let ran := words.foldl (step resolve) r
    ran.texts = r.texts ++ words.filterMap Word.text? ∧
      ran.errors = r.errors ++ (verdicts resolve r.state words).filterMap Verdict.error? ∧
      ran.redirects = enter r.redirects (verdicts resolve r.state words) := by
  induction words generalizing r with
  | nil => exact ⟨(List.append_nil _).symm, (List.append_nil _).symm, rfl⟩
  | cons w words ih =>
    obtain ⟨htexts, herrors, hredirects⟩ := @step_verdict σ resolve r w
    obtain ⟨hlaterTexts, hlaterErrors, hlaterRedirects⟩ := ih (step resolve r w)
    have hword : (w :: words).filterMap Word.text? = w.text?.toList ++ words.filterMap Word.text? := by
      cases htext : w.text? with
      | none => exact List.filterMap_cons_none htext
      | some text => exact List.filterMap_cons_some htext
    rw [verdicts_cons r, List.filterMap_append, enter_append, hword, ← List.append_assoc,
      ← List.append_assoc, ← htexts, ← herrors, ← hredirects]
    exact ⟨hlaterTexts, hlaterErrors, hlaterRedirects⟩

theorem step_recording (r : Resolved σ) (asked : List (Redirect.Kind × String)) (w : Word) :
    step (recording resolve) (r.inState (r.state, asked)) w =
      (step resolve r w).inState ((step resolve r w).state, asked ++ w.request?.toList) := by
  cases w with
  | arg text => simp [Word.request?, step, inState]
  | redirect operator kind target =>
    by_cases ht : target = ""
    · subst ht
      rw [step_missing, step_missing]
      simp [Word.request?, inState]
    · have hrecorded : recording resolve kind target (r.inState (r.state, asked)).state =
          ⟨(resolve kind target r.state).result,
            ((resolve kind target r.state).state, asked ++ [(kind, target)]),
            (resolve kind target r.state).notices⟩ := rfl
      have hrequest : (Word.redirect operator kind target).request? = some (kind, target) :=
        if_neg ht
      cases hanswer : (resolve kind target r.state).result with
      | ok found =>
        rw [hanswer] at hrecorded
        rw [step_ok ht hanswer, step_ok ht (congrArg (·.result) hrecorded), hrecorded, hrequest]
        rfl
      | error e =>
        rw [hanswer] at hrecorded
        rw [step_error ht hanswer, step_error ht (congrArg (·.result) hrecorded), hrecorded,
          hrequest]
        rfl

theorem run_recording (r : Resolved σ) (asked : List (Redirect.Kind × String))
    (words : List Word) :
    let ran := words.foldl (step resolve) r
    words.foldl (step (recording resolve)) (r.inState (r.state, asked)) =
      ran.inState (ran.state, asked ++ words.filterMap Word.request?) := by
  induction words generalizing r asked with
  | nil => simp
  | cons w words ih =>
    have hword : (w :: words).filterMap Word.request? =
        w.request?.toList ++ words.filterMap Word.request? := by
      cases hrequest : w.request? with
      | none => exact List.filterMap_cons_none hrequest
      | some request => exact List.filterMap_cons_some hrequest
    rw [hword, ← List.append_assoc, List.foldl_cons, List.foldl_cons, step_recording]
    exact ih _ _

end Run

/-! ## The last good verdict -/

section Prevails

variable {k : Redirect.Kind} {found : Redirect.Target} {verdicts : List Verdict}

theorem prevails_cons_iff (v : Verdict) :
    Prevails (v :: verdicts) k found ↔
      Prevails verdicts k found ∨ (∀ other, (k, .ok other) ∉ verdicts) ∧ v = (k, .ok found) := by
  constructor
  · rintro ⟨before, after, hsplit, hlast⟩
    cases before with
    | nil =>
      obtain ⟨rfl, rfl⟩ := List.cons.inj hsplit
      exact .inr ⟨hlast, rfl⟩
    | cons first before =>
      obtain ⟨rfl, rfl⟩ := List.cons.inj hsplit
      exact .inl ⟨before, after, rfl, hlast⟩
  · rintro (⟨before, after, rfl, hlast⟩ | ⟨hlast, rfl⟩)
    · exact ⟨v :: before, after, rfl, hlast⟩
    · exact ⟨[], verdicts, rfl, hlast⟩

/-- A table has the last target that was found for a kind, or else what it had. -/
theorem enter_eq_some_iff (table : Table) :
    enter table verdicts k = some found ↔
      Prevails verdicts k found ∨ (∀ other, (k, .ok other) ∉ verdicts) ∧ table k = some found := by
  induction verdicts generalizing table with
  | nil => simp [enter, Prevails]
  | cons v verdicts ih =>
    rw [prevails_cons_iff]
    obtain ⟨j, e | target⟩ := v
    · rw [enter, ih]
      simp
    rw [enter, ih]
    by_cases hkind : k = j
    · subst hkind
      have hnewest : ¬ ((∀ other, (k, .ok other) ∉ (k, .ok target) :: verdicts) ∧
          table k = some found) := fun hnone => hnone.1 target List.mem_cons_self
      rw [Table.set_self, or_iff_left hnewest]
      simp
    · rw [Table.set_of_ne _ _ hkind]
      simp [hkind, Ne.symm hkind]

end Prevails

theorem redirects_eq_some_iff (resolve : Resolver σ) (s : σ) (words : List Word)
    {k : Redirect.Kind} {found : Redirect.Target} :
    (ofWords resolve s words).redirects k = some found ↔
      Prevails (verdicts resolve s words) k found := by
  have hredirects : (ofWords resolve s words).redirects = enter .empty (verdicts resolve s words) :=
    (run_verdicts (start s) words).2.2
  rw [hredirects, enter_eq_some_iff]
  exact or_iff_left fun h => by cases h.2

theorem command?_eq_none_iff {r : Resolved σ} : r.command? = none ↔ r.texts = [] := by
  rw [command?]
  cases r.texts <;> simp

theorem command?_eq_some_iff {r : Resolved σ} {c : Command} :
    r.command? = some c ↔ r.texts = c.name :: c.args ∧ c.redirects = r.redirects := by
  rw [command?]
  cases r.texts with
  | nil => simp
  | cons name args =>
    obtain ⟨name', args', redirects⟩ := c
    simp [and_assoc, eq_comm]

/-- Parsing a line, whatever its resolver answers: the texts are the words that are
no redirects; each redirect with a target is one request, in the order of the words;
each redirect that fails is one error, in that order too; each kind has the target
that was last found for it; and there is a command when there is a text. -/
theorem ofLine_verdicts (resolve : Resolver σ) (s : σ) (line : String) :
    let words := splitWords line
    let parsed := ofLine resolve s line
    let verdicts := verdicts resolve s words
    parsed.texts = words.filterMap Word.text? ∧
      ofLine (recording resolve) (s, []) line =
        parsed.inState (parsed.state, words.filterMap Word.request?) ∧
      verdicts.map Prod.fst = words.filterMap Word.kind? ∧
      parsed.errors = verdicts.filterMap Verdict.error? ∧
      (∀ k found, parsed.redirects k = some found ↔ Prevails verdicts k found) ∧
      (parsed.command? = none ↔ ∀ text, .arg text ∉ words) ∧
      ∀ c, parsed.command? = some c ↔
        words.filterMap Word.text? = c.name :: c.args ∧ c.redirects = parsed.redirects := by
  intro words parsed verdicts
  obtain ⟨htexts, herrors, -⟩ := @run_verdicts σ resolve (start s) words
  have htexts : parsed.texts = words.filterMap Word.text? := htexts
  refine ⟨htexts, run_recording (start s) [] words, ?_, herrors, ?_, ?_, ?_⟩
  · exact verdicts_kinds s words
  · intro k found
    exact redirects_eq_some_iff resolve s words
  · rw [command?_eq_none_iff, htexts, List.eq_nil_iff_forall_not_mem]
    exact forall_congr' fun text => not_congr Word.mem_texts_iff
  · intro c
    rw [command?_eq_some_iff, htexts]

/-- Words after a target are arguments, and a later target of a kind is the one that counts. -/
example :
    let parsed := ofLine Redirect.acceptAll () "ls > a -l > b"
    parsed.texts = ["ls", "-l"] ∧ parsed.redirects .stdoutWrite = some ⟨⟨"b"⟩, .truncate⟩ ∧
      parsed.errors = [] := by
  decide +kernel

end Resolved

end LineShell
