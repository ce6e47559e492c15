import LineShell.Execute

/-!
# Reports of the builtins

A builtin says something on one channel, describes names on both, or moves the
session to a directory and says nothing. Only `exit` may end the session, and no
report has the status of a command that was not found.
-/

set_option autoImplicit false

namespace LineShell

inductive Session.Leads (s : Session) : List String → Path → Prop
  | home {home : Path} (h : s.home = some home) : Leads s [] home
  | directory (dir : String) : Leads s [dir] (s.directory dir)

theorem Session.Leads.length {s : Session} {args : List String} {target : Path}
    (h : s.Leads args target) : args.length ≤ 1 := by
  cases h with
  | home => exact Nat.zero_le 1
  | directory dir => exact Nat.le_refl 1

namespace Builtin

variable (b : Builtin) (s : Session) (t : FileTree) (start : Location) (args : List String)

def moving (target : Path) : Notice := ⟨.debug, s!"cd {s.cwd.text} -> {target.text}"⟩

/-- The reports that a builtin can make. -/
inductive Does : Report → Prop
  | speaks (channel : Channel) (pieces : List String) {status : Int} (h : status = 0 ∨ status = 1) :
      Does (.message s channel pieces (.goOn status))
  | leaves (name : b = .exit) (channel : Channel) (pieces : List String) (status : Int) :
      Does (.message s channel pieces (.leave status))
  | describes (name : b = .type) : Does (runType s t start args)
  | moves (name : b = .cd) (target : Path) (leads : s.Leads args target)
      (isDirectory : t.isDirectory start target = true) :
      Does ⟨[], .goOn 0, { s with cwd := target }, [moving s target]⟩

theorem runCd_does : Does .cd s t start args (runCd s t start args) := by
  -- entering a directory: it is not there, it is none, or it is the new one
  have henter (shown : String) (target : Path) (hleads : s.Leads args target) :
      Does .cd s t start args
        (if !t.isThere start target then
          .message s .err ["cd: ", shown, ": No such file or directory\n"] (.goOn 1)
        else if !t.isDirectory start target then
          .message s .err ["cd: ", shown, ": Not a directory\n"] (.goOn 1)
        else ⟨[], .goOn 0, { s with cwd := target }, [moving s target]⟩) := by
    split
    · exact .speaks _ _ (.inr rfl)
    split
    · exact .speaks _ _ (.inr rfl)
    · rename_i hdirectory
      exact .moves rfl target hleads (by simpa using hdirectory)
  unfold runCd
  dsimp only
  split
  · split
    · rename_i home hhome
      exact henter _ _ (.home hhome)
    · exact .speaks _ _ (.inl rfl)
  · rename_i dir
    exact henter _ _ (.directory dir)
  · exact .speaks _ _ (.inr rfl)

theorem runExit_does : Does .exit s t start args (runExit s args) := by
  unfold runExit
  split
  · exact .leaves rfl _ _ _
  · split
    · exact .leaves rfl _ _ _
    · exact .leaves rfl _ _ _
  · exact .speaks _ _ (.inr rfl)

theorem run_does : Does b s t start args (b.run s t start args) := by
  cases b with
  | cd => exact runCd_does s t start args
  | echo => exact .speaks _ _ (.inl rfl)
  | exit => exact runExit_does s t start args
  | pwd =>
    simp only [run, runPwd]
    split
    · exact .speaks _ _ (.inl rfl)
    · exact .speaks _ _ (.inr rfl)
  | type => exact .describes rfl

theorem run_flow : (b.run s t start args).flow ≠ .goOn notFoundStatus := by
  have hdoes := b.run_does s t start args
  generalize b.run s t start args = report at hdoes
  cases hdoes with
  | speaks channel pieces h => rcases h with rfl | rfl <;> simp [Report.message, notFoundStatus]
  | leaves => simp [Report.message]
  | describes =>
    simp only [runType]
    split <;> simp [notFoundStatus]
  | moves => simp [notFoundStatus]

theorem run_notices : ∀ n ∈ (b.run s t start args).notices, ∃ target, n = moving s target := by
  have hdoes := b.run_does s t start args
  generalize b.run s t start args = report at hdoes
  cases hdoes with
  | speaks | leaves | describes => exact List.forall_mem_nil _
  | moves name target =>
    rw [List.forall_mem_singleton]
    exact ⟨target, rfl⟩

theorem run_session : (b.run s t start args).session = s ∨
    b = .cd ∧ ∃ target, s.Leads args target ∧ t.isDirectory start target = true ∧
      (b.run s t start args).session = { s with cwd := target } := by
  have hdoes := b.run_does s t start args
  generalize b.run s t start args = report at hdoes
  cases hdoes with
  | speaks | leaves | describes => exact .inl rfl
  | moves name target leads isDirectory => exact .inr ⟨name, target, leads, isDirectory, rfl⟩

end Builtin

end LineShell
