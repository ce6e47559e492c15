import LineShell.Proofs.Folding
import LineShell.Proofs.Meaning

/-!
# Moving

Only `cd` moves a session, and only to a directory. Where it leads is the home
directory or a folded path, so a session that starts at an absolute path without
steps up stays at such paths, whatever happens to the files between its lines.
-/

set_option autoImplicit false

namespace LineShell

namespace Path

structure Lawful (P : Path → Prop) : Prop where
  absolute : ∀ p : Path, P p → p.isAbsolute = true
  folded : ∀ p : Path, p.isAbsolute = true → P p.folded

theorem straight_lawful : Lawful Straight :=
  ⟨fun _ h => h.absolute, fun _ h => straight_folded h⟩

theorem dotless_lawful : Lawful fun p => p.isAbsolute = true ∧ p.Dotless :=
  ⟨fun _ h => h.1, fun _ h => ⟨(straight_folded h).absolute, dotless_folded h⟩⟩

end Path

namespace Session

structure Within (P : Path → Prop) (s : Session) : Prop where
  cwd : P s.cwd
  home : ∀ home ∈ s.home, P home

variable {P : Path → Prop} {s : Session} {args : List String} {target : Path}

theorem Leads.within (hP : Path.Lawful P) (hs : s.Within P) (h : s.Leads args target) :
    P target := by
  cases h with
  | home h => exact hs.home target h
  | directory dir =>
    apply hP.folded
    apply Path.join_isAbsolute
    exact hP.absolute s.cwd hs.cwd

end Session

namespace FileTree

variable {t u : FileTree} {start : Location} {p : Path}

theorem isThere_of_isDirectory (h : t.isDirectory start p = true) : t.isThere start p = true := by
  unfold isDirectory at h
  split at h
  · rename_i hlook
    rw [isThere, hlook]
    rfl
  · cases h

theorem isDirectory_paved (h : t.isDirectory start p = true) (hpaves : t.Paves u) :
    u.isDirectory start p = true := by
  unfold isDirectory at h
  split at h
  · rename_i hlook
    rw [isDirectory, look_paved hlook hpaves]
  · cases h

end FileTree

namespace Builtin

theorem runCd_enters {s : Session} {t : FileTree} {start : Location} {dir : String}
    (h : t.isDirectory start (s.directory dir) = true) :
    runCd s t start [dir] =
      ⟨[], .goOn 0, { s with cwd := s.directory dir }, [moving s (s.directory dir)]⟩ := by
  simp only [runCd, FileTree.isThere_of_isDirectory h, h]
  rfl

end Builtin

namespace Command

variable (c : Command) (s : Session) (j : Job)

theorem act_session (m : Meaning) :
    (c.act s j m).2.1 = s ∨
      m = .builtin .cd ∧ ∃ target, s.Leads c.args target ∧
        j.host.tree.isDirectory j.host.start target = true ∧
        (c.act s j m).2.1 = { s with cwd := target } := by
  cases m with
  | builtin b =>
    rw [act, runBuiltin_session]
    rcases b.run_session s j.host.tree j.host.start c.args with hsame | ⟨rfl, hmoved⟩
    · exact .inl hsame
    · exact .inr ⟨rfl, hmoved⟩
  | program path =>
    simp only [act]
    split <;> exact .inl rfl
  | nothing => exact .inl rfl

end Command

namespace Shell

variable {sh : Shell} {line : String}

/-- A line leaves the session as it is, or its command is `cd` and enters a directory. -/
theorem runLine_session (sh : Shell) (line : String) :
    (sh.runLine line).2.session = sh.session ∨
      ∃ c j target, sh.job? line = some (c, j) ∧ c.name = "cd" ∧ sh.session.Leads c.args target ∧
        j.host.tree.isDirectory j.host.start target = true ∧
        (sh.runLine line).2.session = { sh.session with cwd := target } := by
  cases hjob : sh.job? line with
  | none => exact .inl (runLine_idle hjob).1
  | some found =>
    obtain ⟨c, j⟩ := found
    rw [runLine_job hjob]
    rcases c.act_session sh.session j (sh.session.meaning j.host.tree j.host.start c.name) with
      hsame | ⟨hmeaning, target, hleads, hdirectory, hmoved⟩
    · exact .inl hsame
    · have hname : c.name = "cd" := (Session.meaning_eq_builtin.mp hmeaning).symm
      exact .inr ⟨c, j, target, rfl, hname, hleads, hdirectory, hmoved⟩

theorem runLine_cd {dir : String} (hline : splitWords line = ["cd", dir].map .arg)
    (hdir : sh.host.tree.isDirectory sh.host.start (sh.session.directory dir) = true) :
    (sh.runLine line).2.session = { sh.session with cwd := sh.session.directory dir } := by
  have hjob := job?_args sh hline
  have hnoted : ∀ n : Notice, (sh.host.note n).tree.isDirectory (sh.host.note n).start
      (sh.session.directory dir) = true := by
    intro n
    rw [Host.note_start]
    exact FileTree.isDirectory_paved hdir (sh.host.note_touches n).paves
  rw [runLine_builtin (b := .cd) hjob rfl]
  dsimp only
  rw [Command.runBuiltin_session, Builtin.run, Builtin.runCd_enters (hnoted _)]

theorem runLine_within {P : Path → Prop} (hP : Path.Lawful P) (sh : Shell) (line : String)
    (h : sh.session.Within P) :
    (sh.runLine line).2.session.home = sh.session.home ∧
      (sh.runLine line).2.session.search = sh.session.search ∧
      (sh.runLine line).2.session.Within P := by
  rcases sh.runLine_session line with hsame | ⟨c, j, target, -, -, hleads, -, hmoved⟩
  · rw [hsame]
    exact ⟨rfl, rfl, h⟩
  · rw [hmoved]
    exact ⟨rfl, rfl, hleads.within hP h, h.home⟩

/-! ## Sessions -/

structure Stage where
  before : Shell
  line : String
  after : Shell

/-- Runs lines in order. Before each of them the host may become another one, so that
files come, go and change between the lines. -/
def stages (sh : Shell) : List (Host × String) → List Stage
  | [] => []
  | (host, line) :: rest =>
    let before := { sh with host }
    let after := (before.runLine line).2
    ⟨before, line, after⟩ :: stages after rest

theorem stages_within {P : Path → Prop} (hP : Path.Lawful P) (h : sh.session.Within P)
    (steps : List (Host × String)) :
    ∀ stage ∈ sh.stages steps, stage.after.session.home = sh.session.home ∧
      stage.after.session.search = sh.session.search ∧ stage.after.session.Within P := by
  induction steps generalizing sh with
  | nil => exact List.forall_mem_nil _
  | cons step steps ih =>
    obtain ⟨host, line⟩ := step
    obtain ⟨hhome, hsearch, hwithin⟩ := runLine_within hP { sh with host } line h
    rw [stages, List.forall_mem_cons]
    refine ⟨⟨hhome, hsearch, hwithin⟩, fun stage hstage => ?_⟩
    obtain ⟨hhome', hsearch', hwithin'⟩ := ih hwithin stage hstage
    exact ⟨hhome'.trans hhome, hsearch'.trans hsearch, hwithin'⟩

theorem stages_runLine (steps : List (Host × String)) :
    ∀ stage ∈ sh.stages steps, stage.after = (stage.before.runLine stage.line).2 := by
  induction steps generalizing sh with
  | nil => exact List.forall_mem_nil _
  | cons step steps ih =>
    rw [stages, List.forall_mem_cons]
    exact ⟨rfl, ih⟩

/-- From an absolute working directory without dots and steps up, and with such a
home directory or none, the session keeps its home directory and its search path,
and its working directory stays absolute and without dots and steps up, among the
components and, if it was so at first, in the text. A line moves it only if its
command is `cd`, at work with one argument at most, and only to what is a directory
then. -/
theorem stages_session (hcwd : sh.session.cwd.Straight)
    (hhome : ∀ home ∈ sh.session.home, home.Straight) (steps : List (Host × String)) :
    ∀ stage ∈ sh.stages steps,
      stage.after.session.home = sh.session.home ∧
      stage.after.session.search = sh.session.search ∧
      stage.after.session.cwd.Straight ∧
      (sh.session.cwd.Dotless → (∀ home ∈ sh.session.home, home.Dotless) →
        stage.after.session.cwd.Dotless) ∧
      (stage.after.session.cwd ≠ stage.before.session.cwd →
        ∃ c j, stage.before.job? stage.line = some (c, j) ∧ c.name = "cd" ∧ c.args.length ≤ 1 ∧
          j.host.tree.isDirectory j.host.start stage.after.session.cwd = true) := by
  intro stage hstage
  obtain ⟨hsameHome, hsameSearch, hstraight⟩ :=
    stages_within Path.straight_lawful ⟨hcwd, hhome⟩ steps stage hstage
  refine ⟨hsameHome, hsameSearch, hstraight.cwd, ?_, ?_⟩
  · intro hdotless hhomeDotless
    obtain ⟨-, -, hkept⟩ := stages_within Path.dotless_lawful
      ⟨⟨hcwd.absolute, hdotless⟩, fun home h => ⟨(hhome home h).absolute, hhomeDotless home h⟩⟩
      steps stage hstage
    exact hkept.cwd.2
  · intro hmoved
    rw [stages_runLine steps stage hstage] at hmoved ⊢
    rcases stage.before.runLine_session stage.line with
      hsame | ⟨c, j, target, hjob, hname, hleads, hdirectory, hsession⟩
    · rw [hsame] at hmoved
      exact absurd rfl hmoved
    · rw [hsession]
      exact ⟨c, j, hjob, hname, hleads.length, hdirectory⟩

/-- Nothing of the tree has to stay for the session to keep its working directory. -/
example :
    let h : Host := ⟨⟨[(["d"], .directory)]⟩, [], none, .opened false, .empty, ⟨[], none, ""⟩⟩
    let sh : Shell := ⟨"", false, ⟨⟨"/d"⟩, none, ⟨[]⟩⟩, h⟩
    let emptied := { h with tree := h.tree.prune ["d"] }
    (sh.stages [(h, "echo hi"), (emptied, "pwd")]).map (·.after.session.cwd) =
      [⟨"/d"⟩, ⟨"/d"⟩] := by
  decide +kernel

theorem stages_session_down :
    let h : Host := ⟨⟨[(["d"], .directory)]⟩, [], none, .opened false, .empty, ⟨[], none, ""⟩⟩
    let sh : Shell := ⟨"", false, ⟨⟨"/"⟩, none, ⟨[]⟩⟩, h⟩
    let down := sh.runLine "cd d"
    sh.session.cwd.Straight ∧ (∀ home ∈ sh.session.home, home.Straight) ∧
      down.2.session.cwd = ⟨"/d"⟩ ∧ down.2.session.cwd.Straight ∧
      ∃ c j, sh.job? "cd d" = some (c, j) ∧ c.name = "cd" ∧ c.args.length ≤ 1 ∧
        j.host.tree.isDirectory j.host.start ⟨"/d"⟩ = true := by
  intro h sh down
  have hwords : splitWords "cd d" = ["cd", "d"].map .arg := by decide +kernel
  have htarget : sh.session.directory "d" = ⟨"/d"⟩ := by decide +kernel
  have hgrounded : h.tree.Grounded ["d"] := @FileTree.Grounded.child h.tree [] "d" .root rfl
  have hdirectory : h.tree.isDirectory [] (sh.session.directory "d") = true := by
    rw [htarget, show "/d" = "/" ++ "/".intercalate ["d"] by decide +kernel, FileTree.isDirectory,
      FileTree.look_location [] (by decide +kernel) hgrounded (by decide +kernel)]
  have hmoved : down.2.session.cwd = ⟨"/d"⟩ := by
    rw [show down.2.session = _ from runLine_cd hwords hdirectory]
    exact htarget
  have hcwd : sh.session.cwd.Straight := by decide +kernel
  have hhome : ∀ home ∈ sh.session.home, home.Straight := by decide
  obtain ⟨-, -, hstraight, -, hcd⟩ := stages_session hcwd hhome [(h, "cd d")]
    ⟨sh, "cd d", down.2⟩ (List.mem_singleton_self _)
  refine ⟨hcwd, hhome, hmoved, hstraight, ?_⟩
  rw [hmoved] at hcd
  exact hcd (by decide)

end Shell

end LineShell
