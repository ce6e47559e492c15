import LineShell.Completion
import LineShell.FileTree.Walk

/-!
# Search paths

The directories in which a command name is looked up, in their order. An empty
directory stands for the directory of the process, but has no listing.
-/

set_option autoImplicit false

namespace LineShell

structure SearchPath where
  dirs : List Path
  deriving DecidableEq, Repr

namespace SearchPath

def split (s : String) : List Path :=
  (cutAt ':' s.toList).map fun part => ⟨String.ofList part⟩

/-- Adds a directory at the end unless the same one is there. -/
def add (p : SearchPath) (dir : Path) : SearchPath :=
  if p.dirs.any (·.same dir) then p else ⟨p.dirs ++ [dir]⟩

/-- The directories of the environment, if it has any, then further ones. -/
def ofEnvironment (path : Option String) (extra : List Path) : SearchPath :=
  extra.foldl add ⟨(path.map split).getD []⟩

def find? (p : SearchPath) (t : FileTree) (start : Location) (name : String) : Option Path :=
  if name = "" || name.toList.contains '/' then none
  else (p.dirs.map (·.join name)).find? (t.isExecutable start)

def candidatesIn (t : FileTree) (start : Location) (typed : String) (dir : Path) : List String :=
  ((t.listing start dir).getD []).filter fun name =>
    Completion.startsWith name typed && t.isExecutable start (dir.join name)

def candidates (p : SearchPath) (t : FileTree) (start : Location) (typed : String) :
    List String :=
  Names.ofList (p.dirs.flatMap (candidatesIn t start typed))

end SearchPath

end LineShell
