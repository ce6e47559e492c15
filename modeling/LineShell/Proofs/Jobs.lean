import LineShell.Shell

/-!
# Lines at work

A line comes to a command with open streams, or to nothing to run. Such a command
does what its name means: that of a builtin, of a program or of nothing. A program
that it starts may copy what a file holds.
-/

set_option autoImplicit false

namespace LineShell

inductive Meaning where
  | builtin (b : Builtin)
  | program (path : Path)
  | nothing
  deriving DecidableEq, Repr

def Session.meaning (s : Session) (t : FileTree) (start : Location) (name : String) : Meaning :=
  match Builtin.ofName? name with
  | some b => .builtin b
  | none =>
    match s.locate t start name with
    | some path => .program path
    | none => .nothing

namespace Command

variable (c : Command) (s : Session) (j : Job)

def spawning (path : Path) : Notice :=
  ⟨.debug, s!"spawning {path.text} in {s.cwd.text}: {Argv.render (c.name :: c.args)}"⟩

/-- What a command does with open streams, by the meaning of its name. -/
def act : Meaning → Flow × Session × Host
  | .builtin b => c.runBuiltin b s j
  | .program path =>
    let j := { j with host := j.host.note (c.spawning s path) }
    match Launch.prepare j s path c.args with
    | .error e => (.goOn cannotStartStatus, s, j.host.complain s!"{c.name}: {e.message}")
    | .ok (p, args, dir) => (.goOn p.exitStatus, s, (Launch.perform j p args dir).host)
  | .nothing => (.goOn notFoundStatus, s, c.reportMissing j)

def job? (h : Host) : Option Job :=
  match Streams.ofTable h.tree h.start c.redirects with
  | (.error _, _) => none
  | (.ok streams, tree) => some ⟨{ h with tree }, streams⟩

theorem execute_job {h : Host} {j : Job} (hjob : c.job? h = some j) :
    c.execute s h = c.act s j (s.meaning j.host.tree j.host.start c.name) := by
  unfold job? at hjob
  rw [execute]
  rcases hopen : Streams.ofTable h.tree h.start c.redirects with ⟨e | streams, opened⟩ <;>
    rw [hopen] at hjob
  · cases hjob
  cases hjob
  rw [Session.meaning]
  dsimp only
  cases Builtin.ofName? c.name with
  | some b => rfl
  | none =>
    rw [runProgram]
    dsimp only
    rcases s.locate opened h.start c.name with _ | path
    · rfl
    · dsimp only [act, spawning]
      generalize Launch.prepare _ s path c.args = ready
      rcases ready with e | ⟨p, args, dir⟩
      · rfl
      · rfl

theorem execute_idle {h : Host} (hjob : c.job? h = none) :
    ∃ k, c.execute s h = (.goOn 1, s, k) := by
  unfold job? at hjob
  rw [execute]
  rcases hopen : Streams.ofTable h.tree h.start c.redirects with ⟨e | streams, opened⟩ <;>
    rw [hopen] at hjob
  · exact ⟨_, rfl⟩
  · cases hjob

end Command

def Host.complainAll (h : Host) (errors : List Redirect.Error) : Host :=
  errors.foldl (fun h e => h.complain s!"keysh: {e.message}") h

/-! ## Lines -/

namespace Shell

/-- What is left to do for a line after its redirects are reported. -/
def perform (sh : Shell) (command? : Option Command) (h : Host) : Flow × Shell :=
  match command? with
  | none => (.goOn 0, { sh with host := h })
  | some command =>
    let (flow, session, host) :=
      command.execute sh.session (h.note ⟨.debug, command.summary⟩)
    (flow, { sh with session, host })

def reading (sh : Shell) (line : String) : Resolved FileTree :=
  .ofLine (Redirect.resolveIn sh.host.start sh.session.cwd) sh.host.tree line

def reported (sh : Shell) (r : Resolved FileTree) : Host :=
  ({ sh.host with tree := r.state }.noteAll r.notices).complainAll r.errors

variable (sh : Shell) (line : String)

theorem runLine_perform :
    sh.runLine line = sh.perform (sh.reading line).command? (sh.reported (sh.reading line)) := by
  rfl

/-- What a line comes to: its command, at work with its streams open. -/
def job? : Option (Command × Job) :=
  (sh.reading line).command?.bind fun c =>
    (c.job? ((sh.reported (sh.reading line)).note ⟨.debug, c.summary⟩)).map (c, ·)

variable {sh : Shell} {line : String} {c : Command} {j : Job}

theorem job?_eq_some (h : sh.job? line = some (c, j)) :
    (sh.reading line).command? = some c ∧
      c.job? ((sh.reported (sh.reading line)).note ⟨.debug, c.summary⟩) = some j := by
  obtain ⟨command, hcommand, hrest⟩ := Option.bind_eq_some_iff.mp h
  obtain ⟨job, hjob, heq⟩ := Option.map_eq_some_iff.mp hrest
  cases heq
  exact ⟨hcommand, hjob⟩

theorem runLine_job (h : sh.job? line = some (c, j)) :
    let ran := c.act sh.session j (sh.session.meaning j.host.tree j.host.start c.name)
    sh.runLine line = (ran.1, { sh with session := ran.2.1, host := ran.2.2 }) := by
  obtain ⟨hcommand, hjob⟩ := job?_eq_some h
  rw [runLine_perform, hcommand, perform]
  dsimp only
  rw [c.execute_job sh.session hjob]

theorem runLine_idle (h : sh.job? line = none) :
    (sh.runLine line).2.session = sh.session ∧ ∃ status, (sh.runLine line).1 = .goOn status := by
  rw [runLine_perform]
  cases hcommand : (sh.reading line).command? with
  | none => exact ⟨rfl, 0, rfl⟩
  | some command =>
    rw [job?, hcommand, Option.bind_some, Option.map_eq_none_iff] at h
    obtain ⟨k, hk⟩ := command.execute_idle sh.session h
    rw [perform]
    dsimp only
    rw [hk]
    exact ⟨rfl, 1, rfl⟩

end Shell

/-! ## Files that a program copies -/

/-- A program runs that copies what the file at a place holds. -/
def Launch.Copies (j : Job) (s : Session) (path : Path) (args : List String) (loc : Location) :
    Prop :=
  ∃ p all dir, prepare j s path args = .ok (p, all, dir) ∧ p.copiesInput = true ∧
    j.streams.stdin = some loc

def Command.Copies (c : Command) (s : Session) (h : Host) (loc : Location) : Prop :=
  ∃ j path, c.job? h = some j ∧ s.meaning j.host.tree j.host.start c.name = .program path ∧
    Launch.Copies { j with host := j.host.note (c.spawning s path) } s path c.args loc

def Shell.Copies (sh : Shell) (line : String) (loc : Location) : Prop :=
  ∃ c, (sh.reading line).command? = some c ∧
    c.Copies sh.session ((sh.reported (sh.reading line)).note ⟨.debug, c.summary⟩) loc

end LineShell
