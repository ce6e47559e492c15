import LineShell.Path

/-!
# Configuration

What a user can choose about the shell, and what of the environment matters.
-/

set_option autoImplicit false

namespace LineShell

structure Config where
  prompt : String
  executables : Bool
  /-- Directories that are searched after those of the environment. -/
  extraDirs : List String
  level : String
  logFile : String
  deriving DecidableEq, Repr

namespace Config

def standard : Config where
  prompt := "$ "
  executables := true
  extraDirs := []
  level := "off"
  logFile := "~/.local/state/keysh/keysh.log"

end Config

structure Environment where
  home : Option String
  path : Option String
  deriving DecidableEq, Repr

/-- The home that a tilde in the configuration means. Without one in the
environment it is that of the superuser. -/
def Environment.tildeHome (e : Environment) : String :=
  match e.home with
  | some "" | none => "/root"
  | some home => home

def Environment.expand (e : Environment) (s : String) : Path :=
  ⟨Path.expandTilde (some e.tildeHome) s⟩

end LineShell
