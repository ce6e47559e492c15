import LineShell.Proofs.Dropping
import LineShell.Proofs.Rounds

/-!
# Sessions at a terminal

At a terminal and without one the same lines are run, each on the shell that the
one before it left. What a terminal shows besides their output is the prompt, the
echo and a line break.
-/

set_option autoImplicit false

namespace LineShell

namespace Shell

/-- What a terminal shows of a reading: the prompt, the echo and, unless reading
fails, a line break. -/
def framed (prompt : String) : Frame := fun result echo =>
  Utf8.ofString prompt ++ echo ++
    match result with
    | .error (.io _) => []
    | _ => Utf8.ofString lineBreak

/-- The shell at a terminal differs from the one beside it in what it has shown and
logged, and it holds nothing back. -/
structure Beside (log : Option Location) (p : String) (sh sh' : Shell) : Prop
    extends Alike log sh sh' where
  prompts : sh.prompt = p
  quiet : sh'.host.stdout.Quiet

section Beside

variable {log : Option Location} {p : String} {sh sh' : Shell}

theorem Beside.put (h : Beside log p sh sh') {next : Stdout} (hnext : next.Quiet) :
    Beside log p sh { sh' with host.stdout := next } where
  prompt := h.prompt
  executables := h.executables
  session := h.session
  stderr := h.stderr
  prompts := h.prompts
  quiet := hnext
  owned := h.owned
  host := by
    have hsame : { sh'.host with stdout := next }.afresh = sh'.host.afresh := by
      simp only [Host.afresh, hnext.roomy, hnext.nothingHeld, h.quiet.roomy, h.quiet.nothingHeld]
    rw [hsame]
    exact h.host

theorem Beside.note (h : Beside log p sh sh') {level : Level}
    (hlog : sh'.host.records level = true → sh'.host.logPlace? = log) (message : String) :
    Beside log p sh (sh'.note level message) where
  prompt := h.prompt
  executables := h.executables
  session := h.session
  stderr := (sh'.host.stderr_note _).trans h.stderr
  prompts := h.prompts
  quiet := by
    show (sh'.host.note _).stdout.Quiet
    rw [Host.note_stdout]
    exact h.quiet
  owned := h.owned
  host := h.host.trans (Host.note_sameBut sh'.host ⟨level, message⟩ hlog).afresh

end Beside

end Shell

end LineShell
