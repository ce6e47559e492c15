import LineShell.Config.Basic
import LineShell.Host

/-!
# The log file

The event log goes to a file if the configuration names a level and a file that
can be opened. Whatever fails leaves the log off.
-/

set_option autoImplicit false

namespace LineShell.Host

def makeRoom (h : Host) (p : Path) : Host :=
  match p.parent? with
  | none => h
  | some dir =>
    { h with tree := (h.tree.makeDirectories h.start (Path.trimmed dir.parts).reverse).1 }

def startLog (h : Host) (config : Config) (env : Environment) : Host :=
  match Level.ofText? config.level with
  | none => h
  | some threshold =>
    if config.logFile = "" then h
    else
      let file := env.expand config.logFile
      let h := h.makeRoom file
      match h.tree.openForWriting h.start true file with
      | .error _ => h
      | .ok (tree, handle) => { h with tree, journal.file := some (handle, threshold) }

def threshold? (h : Host) : Option Level := h.journal.file.map (·.2)

end LineShell.Host
