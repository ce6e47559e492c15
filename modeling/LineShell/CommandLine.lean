import LineShell.Config.Load
import LineShell.Log
import LineShell.Shell

/-!
# The command line

Without arguments the program is a shell. It can also tell its version or show
the effective configuration; only the first argument counts.
-/

set_option autoImplicit false

namespace LineShell.CommandLine

inductive Request where
  | shell
  | version
  | dumpConfig
  | unknown (argument : String)
  deriving DecidableEq, Repr

def Request.ofArguments : List String → Request
  | [] => shell
  | "--version" :: _ => version
  | "--dump-config" :: _ => dumpConfig
  | argument :: _ => unknown argument

def versionText : String := "keysh 0.1.0\n"

def usageText : String := "usage: keysh [--version | --dump-config]"

/-- Only the lowest byte of a status reaches the outside. -/
def exitCode (status : Int) : Nat := (status % 256).toNat

def print (h : Host) (text : String) : Host :=
  { h with stdout := (Sink.emit h.stdout [Utf8.ofString text]).2 }

def runShell (config : Config) (env : Environment) (h : Host) (isTerminal : Bool)
    (events : List Event) : Int × Host :=
  let h := h.startLog config env
  match Shell.create config env h with
  | .error e => (1, h.complain s!"keysh: {e.message}")
  | .ok sh =>
    match sh.run isTerminal events with
    | (.ok status, sh) => (status, sh.host)
    | (.error cause, sh) => (1, sh.host.complain s!"keysh: {Shell.failureMessage cause}")

def run (args : List String) (env : Environment) (h : Host) (isTerminal : Bool)
    (events : List Event) : Nat × Host :=
  let (config, isUnfit) := Config.load h.tree h.start env
  let h := if isUnfit then h.complain "keysh: config parse error: unfit document" else h
  match Request.ofArguments args with
  | .version => (0, print h versionText)
  | .dumpConfig => (0, print h config.toToml)
  | .unknown argument =>
    (2, (h.complain s!"keysh: unknown argument: {argument}").complain usageText)
  | .shell =>
    let (status, h) := runShell config env h isTerminal events
    (exitCode status, h)

end LineShell.CommandLine
