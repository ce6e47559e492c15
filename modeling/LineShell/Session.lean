import LineShell.SearchPath

/-!
# Sessions

What commands know of the shell: its working directory, which is the shell's
own and not that of the process, the home directory and the search path.
-/

set_option autoImplicit false

namespace LineShell

structure Session where
  cwd : Path
  home : Option Path
  search : SearchPath
  deriving DecidableEq, Repr

/-- What comes after a command: the next line, or the end of the session. Both
carry a status. -/
inductive Flow where
  | goOn (status : Int)
  | leave (status : Int)
  deriving DecidableEq, Repr

/-- The program that a command name stands for. A name with a slash is a path
from the working directory. -/
def Session.locate (s : Session) (t : FileTree) (start : Location) (name : String) :
    Option Path :=
  if name.toList.contains '/' then
    let path := s.cwd.join name
    if t.isExecutable start path then some path else none
  else s.search.find? t start name

/-- Where a directory argument leads: a tilde expanded, seen from the working
directory, without idle parts and steps up. -/
def Session.directory (s : Session) (argument : String) : Path :=
  (s.cwd.join (Path.expandTilde (s.home.map (·.text)) argument)).folded

end LineShell
