import LineShell.Command
import LineShell.Host
import LineShell.Outlets

/-!
# Streams

The files that a command's redirects open, in the order standard input, output,
error. Where there is none the command shares the stream of the shell.
-/

set_option autoImplicit false

namespace LineShell

structure Streams where
  stdin : Option Location
  stdout : Option Handle
  stderr : Option Handle
  deriving DecidableEq, Repr

structure OpenError where
  path : Path
  cause : OsError
  deriving DecidableEq, Repr

def OpenError.message (e : OpenError) : String := s!"{e.path.text}: {e.cause.message}"

namespace Streams

def openInput (t : FileTree) (start : Location) :
    Option Redirect.Target → Except OpenError (Option Location)
  | none => .ok none
  | some target =>
    match t.look start target.path with
    | .ok (loc, _) => .ok (some loc)
    | .error e => .error ⟨target.path, e⟩

def openOutput (t : FileTree) (start : Location) :
    Option Redirect.Target → Except OpenError (FileTree × Option Handle)
  | none => .ok (t, none)
  | some target =>
    match t.openForWriting start (target.mode = .append) target.path with
    | .ok (opened, handle) => .ok (opened, some handle)
    | .error e => .error ⟨target.path, e⟩

/-- Opens the streams of a command. What was opened before a failure stays
opened as far as the tree goes. -/
def ofTable (t : FileTree) (start : Location) (table : Redirect.Table) :
    Except OpenError Streams × FileTree :=
  match openInput t start (table .stdinRead) with
  | .error e => (.error e, t)
  | .ok stdin =>
    match openOutput t start (table.effective .stdoutWrite .stdoutAppend) with
    | .error e => (.error e, t)
    | .ok (t, stdout) =>
      match openOutput t start (table.effective .stderrWrite .stderrAppend) with
      | .error e => (.error e, t)
      | .ok (t, stderr) => (.ok ⟨stdin, stdout, stderr⟩, t)

end Streams

structure Job where
  host : Host
  streams : Streams
  deriving DecidableEq, Repr

namespace Job

def handle (j : Job) : Channel → Option Handle
  | .out => j.streams.stdout
  | .err => j.streams.stderr

def setHandle (j : Job) (channel : Channel) (h : Handle) : Job :=
  match channel with
  | .out => { j with streams.stdout := some h }
  | .err => { j with streams.stderr := some h }

/-- Writes to the file of a channel or, if it has none, with the given action
of the host. -/
def writeVia (share : Channel → Host → Bytes → Option OsError × Host) (channel : Channel)
    (j : Job) (bs : Bytes) : Option OsError × Job :=
  match j.handle channel with
  | some h =>
    match j.host.tree.write h bs with
    | .ok (tree, h) => (none, { j with host.tree := tree }.setHandle channel h)
    | .error e => (some e, j)
  | none =>
    let (failure, host) := share channel j.host bs
    (failure, { j with host })

/-- How a builtin shares the streams of the shell: through the shell's own
buffer. -/
def share : Channel → Host → Bytes → Option OsError × Host
  | .out, h, bs => let (failure, stdout) := h.stdout.write bs; (failure, { h with stdout })
  | .err, h, bs => let (failure, stderr) := h.stderr.write bs; (failure, { h with stderr })

/-- How a program shares them: past the buffer, on the device itself. -/
def inherit : Channel → Host → Bytes → Option OsError × Host
  | .out, h, bs => let (failure, stdout) := h.stdout.pass bs; (failure, { h with stdout })
  | .err, h, bs => let (failure, stderr) := h.stderr.write bs; (failure, { h with stderr })

/-- Only standard output of the shell holds anything back. -/
def flush (channel : Channel) (j : Job) : Option OsError × Job :=
  match channel, j.streams.stdout with
  | .out, none =>
    let (failure, stdout) := j.host.stdout.flush
    (failure, { j with host.stdout := stdout })
  | _, _ => (none, j)

instance : Outlets Job where
  write := writeVia share
  flush := flush

end Job

end LineShell
