import LineShell.FileTree.Basic
import LineShell.OsError

/-!
# Walking a tree

A path is followed step by step from the root or from a given place. A step up
leads to the place above the one reached, and a link on the way is replaced by
its target, at most forty times in one walk.
-/

set_option autoImplicit false

namespace LineShell

/-- Where a walk ends: at a node, or at an unused name in a directory. -/
inductive Place where
  | found (loc : Location) (node : Node)
  | vacant (loc : Location)
  deriving DecidableEq, Repr

/-- What a walk is for. It decides about the last name: a link is followed
unless a new node is to be made, and a slash after a name is refused where a
file is to be made. -/
inductive Purpose where
  | look
  | makeFile
  | makeNewFile
  | makeDirectory
  deriving DecidableEq, Repr

namespace Purpose

def followsLast : Purpose → Bool
  | look | makeFile => true
  | makeNewFile | makeDirectory => false

def refusesSlash : Purpose → Bool
  | makeFile | makeNewFile => true
  | look | makeDirectory => false

end Purpose

namespace FileTree

def nameLimit : Nat := 255

/-- The shortest path that is too long, in bytes. -/
def pathLimit : Nat := 4096

def linkLimit : Nat := 40

/-- Follows the steps from a place that is a directory. `slash` tells whether a
slash stands after the last step; `links` is how many more links may be
followed. -/
def walk (t : FileTree) (purpose : Purpose) (links : Nat) (loc : Location)
    (steps : List String) (slash : Bool) : Except OsError Place :=
  match steps with
  | [] =>
    match t.node? loc with
    | some node => .ok (.found loc node)
    | none => .error .notFound
  | step :: rest =>
    if step = "." then walk t purpose links loc rest slash
    else if step = ".." then walk t purpose links loc.dropLast rest slash
    else
      let isLast := rest.isEmpty
      let next := loc ++ [step]
      if isLast && slash && purpose.refusesSlash then .error .isDirectory
      else if step.utf8ByteSize > nameLimit then .error .nameTooLong
      else match t.node? next with
        | none => if isLast then .ok (.vacant next) else .error .notFound
        | some .directory => walk t purpose links next rest slash
        | some (.link target) =>
          if isLast && !purpose.followsLast then .ok (.found next (.link target))
          else match links with
            | 0 => .error .tooManyLinks
            | links + 1 =>
              let path : Path := ⟨target⟩
              walk t purpose links (if path.isAbsolute then [] else loc) (path.steps ++ rest)
                (if isLast then slash || Path.endsInSlash target else slash)
        | some node =>
          if isLast && (!slash || !purpose.followsLast) then .ok (.found next node)
          else .error .notDirectory
termination_by (links, steps.length)

/-- Follows a path from the directory of the process. -/
def follow (t : FileTree) (start : Location) (purpose : Purpose) (p : Path) :
    Except OsError Place :=
  if p.text.toList.any (·.toNat = 0) then .error .nulInPath
  else if p.text = "" then .error .notFound
  else if p.text.utf8ByteSize ≥ pathLimit then .error .nameTooLong
  else walk t purpose linkLimit (if p.isAbsolute then [] else start) p.steps
    (Path.endsInSlash p.text)

def look (t : FileTree) (start : Location) (p : Path) : Except OsError (Location × Node) :=
  match t.follow start .look p with
  | .ok (.found loc node) => .ok (loc, node)
  | .ok (.vacant _) => .error .notFound
  | .error e => .error e

def isThere (t : FileTree) (start : Location) (p : Path) : Bool :=
  (t.look start p).isOk

def isDirectory (t : FileTree) (start : Location) (p : Path) : Bool :=
  match t.look start p with
  | .ok (_, .directory) => true
  | _ => false

def isExecutable (t : FileTree) (start : Location) (p : Path) : Bool :=
  match t.look start p with
  | .ok (_, node) => node.isRunnable
  | .error _ => false

def listing (t : FileTree) (start : Location) (p : Path) : Option (List String) :=
  match t.look start p with
  | .ok (loc, .directory) => some (t.names loc)
  | _ => none

end FileTree

end LineShell
