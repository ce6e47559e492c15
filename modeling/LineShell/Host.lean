import LineShell.FileTree.Open
import LineShell.Notice
import LineShell.Stderr
import LineShell.Stdout

/-!
# Hosts

What lies around the shell: files, the directory of the process, its two
outputs, and the event log, which may go on to a file.
-/

set_option autoImplicit false

namespace LineShell

structure Journal where
  notices : List Notice
  /-- The log file and the threshold of what is written to it. -/
  file : Option (Handle × Level)
  clock : String
  deriving DecidableEq, Repr

structure Host where
  tree : FileTree
  start : Location
  /-- The search path of the process, for programs without a directory. -/
  path : Option String
  stdout : Stdout
  stderr : Stderr
  journal : Journal
  deriving DecidableEq, Repr

namespace Host

/-- The place of the log file. It is open as long as the program runs. -/
def logPlace? (h : Host) : Option Location := h.journal.file.map (·.1.loc)

def logLine (clock : String) (n : Notice) : String :=
  s!"{clock} [{n.level.name.map Char.toUpper}] {n.message}\n"

/-- Logs a notice. A log file that cannot be written is left alone. -/
def note (h : Host) (n : Notice) : Host :=
  let noted := { h with journal.notices := h.journal.notices ++ [n] }
  match h.journal.file with
  | none => noted
  | some (handle, threshold) =>
    if threshold.admits n.level then
      match h.tree.write handle (Utf8.ofString (logLine h.journal.clock n)) with
      | .ok (tree, handle) =>
        { noted with tree, journal.file := some (handle, threshold) }
      | .error _ => noted
    else noted

def noteAll (h : Host) (ns : List Notice) : Host := ns.foldl note h

/-- A message of the shell itself. It counts as written: one that the device
refuses would break off the whole program. -/
def complain (h : Host) (s : String) : Host :=
  { h with stderr := h.stderr.push (Utf8.ofString (s ++ "\n")) }

end Host

end LineShell
