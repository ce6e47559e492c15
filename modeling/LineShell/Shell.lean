import LineShell.Config.Basic
import LineShell.Editor.Reader
import LineShell.Execute
import LineShell.Parse

/-!
# The shell

Lines are read and run one after another until one of them, an abort or the end
of the input ends the session. From a terminal they are edited with a prompt and
an echo; from anything else they are taken as they are.
-/

set_option autoImplicit false

namespace LineShell

structure Shell where
  prompt : String
  executables : Bool
  session : Session
  host : Host

namespace Shell

def ofSession (config : Config) (session : Session) (host : Host) : Shell :=
  ⟨config.prompt, config.executables, session, host⟩

/-- A shell in the directory of the process, if that is still there. -/
def create (config : Config) (env : Environment) (host : Host) : Except OsError Shell :=
  if host.tree.node? host.start = some .directory then
    let session : Session :=
      { cwd := ⟨"/" ++ "/".intercalate host.start⟩
        home := env.home.map fun h => ⟨h⟩
        search := .ofEnvironment env.path (config.extraDirs.map env.expand) }
    .ok (ofSession config session host)
  else .error .notFound

def candidates (sh : Shell) (typed : String) : List String :=
  Builtin.candidates typed ++
    if sh.executables then sh.session.search.candidates sh.host.tree sh.host.start typed else []

def editing (sh : Shell) : Setup := ⟨sh.prompt, sh.candidates, true⟩

def plain (sh : Shell) : Setup := ⟨"", sh.candidates, false⟩

def note (sh : Shell) (level : Level) (message : String) : Shell :=
  { sh with host := sh.host.note ⟨level, message⟩ }

def runLine (sh : Shell) (line : String) : Flow × Shell :=
  let (resolved, host) := sh.host.parse sh.session.cwd line
  let host := resolved.errors.foldl (fun h e => h.complain s!"keysh: {e.message}") host
  match resolved.command? with
  | none => (.goOn 0, { sh with host })
  | some command =>
    let (flow, session, host) :=
      command.execute sh.session (host.note ⟨.debug, command.summary⟩)
    (flow, { sh with session, host })

def abortStatus : Abort → Int
  | .interrupt => 130
  | .endOfInput => 0

abbrev Outcome := Except OsError Int

def outcomeShown : Outcome → String
  | .ok status => s!"Ok({status})"
  | .error cause => s!"Err(Io({cause.shown}))"

def failureMessage (cause : OsError) : String := s!"I/O error: {cause.message}"

inductive Turn where
  | over (outcome : Outcome)
  | next (events : List Event)

def afterFlow (events : List Event) : Flow → Turn
  | .leave status => .over (.ok status)
  | .goOn _ => .next events

def batchTurn (sh : Shell) (events : List Event) : Turn × Shell :=
  let (result, console) := Console.readLine sh.plain (⟨events, (), []⟩ : Console Unit)
  match result with
  | .error (.abort reason) => (.over (.ok (abortStatus reason)), sh)
  | .error (.io cause) => (.over (.error cause), sh)
  | .ok line =>
    let (flow, sh) := sh.runLine line
    (afterFlow console.events flow, sh)

theorem afterFlow_next {events rest : List Event} {flow : Flow}
    (h : afterFlow events flow = .next rest) : rest = events := by
  cases flow <;> simp_all [afterFlow]

theorem batchTurn_length {sh : Shell} {events rest : List Event}
    (h : (sh.batchTurn events).1 = .next rest) : rest.length < events.length := by
  simp only [batchTurn] at h
  split at h
  · simp at h
  · simp at h
  · rename_i line hline
    rw [afterFlow_next h]
    exact Console.readLine_length hline

def takeTurns (turn : Shell → List Event → Turn × Shell)
    (shorter : ∀ {sh : Shell} {events rest : List Event},
      (turn sh events).1 = .next rest → rest.length < events.length)
    (sh : Shell) (events : List Event) : Outcome × Shell :=
  match _h : (turn sh events).1 with
  | .over outcome => (outcome, (turn sh events).2)
  | .next rest => takeTurns turn shorter (turn sh events).2 rest
termination_by events.length
decreasing_by exact shorter _h

def runBatch : Shell → List Event → Outcome × Shell := takeTurns batchTurn batchTurn_length

def display (sh : Shell) (text : String) : Option OsError × Shell :=
  let (failure, stdout) := Sink.emit sh.host.stdout [Utf8.ofString text]
  (failure, { sh with host.stdout := stdout })

def readAtTerminal (sh : Shell) (events : List Event) :
    Except ReadError String × List Event × Shell :=
  match sh.display sh.prompt with
  | (some cause, sh) => (.error (.io cause), events, sh)
  | (none, sh) =>
    let (result, console) := Console.readLine sh.editing ⟨events, sh.host.stdout, []⟩
    let host := { sh.host with stdout := console.sink }.noteAll console.notices
    (result, console.events, { sh with host })

theorem readAtTerminal_length {sh : Shell} {events : List Event} {line : String}
    (h : (sh.readAtTerminal events).1 = .ok line) :
    (sh.readAtTerminal events).2.1.length < events.length := by
  rcases hd : sh.display sh.prompt with ⟨_ | cause, shown⟩
  · simp only [readAtTerminal, hd] at h ⊢
    exact Console.readLine_length h
  · simp [readAtTerminal, hd] at h

def lineBreak : String := "\r\n"

/-- The line break that ends the echo comes before anything else happens. -/
def interactiveTurn (sh : Shell) (events : List Event) : Turn × Shell :=
  let reading := sh.readAtTerminal events
  match reading.1 with
  | .error (.io cause) => (.over (.error cause), reading.2.2)
  | .error (.abort reason) =>
    match reading.2.2.display lineBreak with
    | (some cause, sh) => (.over (.error cause), sh)
    | (none, sh) => (.over (.ok (abortStatus reason)), sh)
  | .ok line =>
    match reading.2.2.display lineBreak with
    | (some cause, sh) => (.over (.error cause), sh)
    | (none, sh) =>
      let (flow, sh) := sh.runLine line
      (afterFlow reading.2.1 flow, sh)

theorem interactiveTurn_length {sh : Shell} {events rest : List Event}
    (h : (sh.interactiveTurn events).1 = .next rest) : rest.length < events.length := by
  simp only [interactiveTurn] at h
  split at h
  · simp at h
  · split at h <;> simp at h
  · rename_i line hline
    split at h
    · simp at h
    · rw [afterFlow_next h]
      exact readAtTerminal_length hline

/-- The loop at a terminal that is in raw mode. -/
def runInteractive : Shell → List Event → Outcome × Shell :=
  takeTurns interactiveTurn interactiveTurn_length

def enterRaw (sh : Shell) : Shell := sh.note .info "terminal fd 0 entered raw mode"

def leaveRaw (sh : Shell) : Shell := sh.note .info "terminal fd 0 restored"

/-- Raw mode lasts as long as the lines are read. -/
def runAtTerminal (sh : Shell) (events : List Event) : Outcome × Shell :=
  let (outcome, sh) := sh.enterRaw.runInteractive events
  (outcome, sh.leaveRaw)

def run (sh : Shell) (isTerminal : Bool) (events : List Event) : Outcome × Shell :=
  let sh := sh.note .info s!"session started in {sh.session.cwd.text}"
  let (outcome, sh) := if isTerminal then sh.runAtTerminal events else sh.runBatch events
  (outcome, sh.note .info s!"session ended: {outcomeShown outcome}")

end Shell

end LineShell
