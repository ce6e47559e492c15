import LineShell.Builtin
import LineShell.Launch

/-!
# Executing commands

A command runs once its streams are open: a builtin in the shell, anything else
as a program. If one of the streams cannot be opened, nothing runs.
-/

set_option autoImplicit false

namespace LineShell

def notFoundStatus : Int := 127

def cannotStartStatus : Int := 126

namespace Command

/-- A write that fails is not an error of the shell, but it decides the status,
even that of a command that would end the session. -/
def runBuiltin (c : Command) (b : Builtin) (s : Session) (j : Job) : Flow × Session × Host :=
  let report := b.run s j.host.tree j.host.start c.args
  let refused (e : OsError) (j : Job) : Flow × Session × Host :=
    (.goOn 1, report.session,
      j.host.note ⟨.warn, s!"{b.name} failed to write output: {e.message}"⟩)
  match report.deliver { j with host := j.host.noteAll report.notices } with
  | (.error e, j) => refused e j
  | (.ok flow, j) =>
    match Outlets.flushAll j with
    | (none, j) => (flow, report.session, j.host)
    | (some e, j) => refused e j

theorem runBuiltin_emit (c : Command) (b : Builtin) (s : Session) (j : Job) :
    let report := b.run s j.host.tree j.host.start c.args
    c.runBuiltin b s j =
      match Outlets.emit ({ j with host := j.host.noteAll report.notices } : Job) report.writes with
      | (none, j) => (report.flow, report.session, j.host)
      | (some e, j) =>
        (.goOn 1, report.session,
          j.host.note ⟨.warn, s!"{b.name} failed to write output: {e.message}"⟩) := by
  intro report
  unfold runBuiltin Builtin.Report.deliver Outlets.emit
  dsimp only
  rcases Outlets.writeAll _ report.writes with ⟨_ | e, left⟩
  · rcases Outlets.flushAll left with ⟨_ | e, last⟩
    · rfl
    · rfl
  · rfl

def reportMissing (c : Command) (j : Job) : Host :=
  match Outlets.writeAll j [(.err, c.name), (.err, ": command not found\n")] with
  | (none, j) => j.host
  | (some e, j) =>
    j.host.note ⟨.warn, s!"failed to report missing command {c.name}: {e.message}"⟩

def runProgram (c : Command) (s : Session) (j : Job) : Flow × Host :=
  match s.locate j.host.tree j.host.start c.name with
  | none => (.goOn notFoundStatus, c.reportMissing j)
  | some path =>
    let shown := Argv.render (c.name :: c.args)
    let notice : Notice := ⟨.debug, s!"spawning {path.text} in {s.cwd.text}: {shown}"⟩
    let j := { j with host := j.host.note notice }
    match Launch.prepare j s path c.args with
    | .error e => (.goOn cannotStartStatus, j.host.complain s!"{c.name}: {e.message}")
    | .ok (p, args, dir) => (.goOn p.exitStatus, (Launch.perform j p args dir).host)

def execute (c : Command) (s : Session) (h : Host) : Flow × Session × Host :=
  match Streams.ofTable h.tree h.start c.redirects with
  | (.error e, tree) => (.goOn 1, s, { h with tree }.complain s!"keysh: {e.message}")
  | (.ok streams, tree) =>
    let j : Job := ⟨{ h with tree }, streams⟩
    match Builtin.ofName? c.name with
    | some b => c.runBuiltin b s j
    | none =>
      let (flow, host) := c.runProgram s j
      (flow, s, host)

end Command

end LineShell
