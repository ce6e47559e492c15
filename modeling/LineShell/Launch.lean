import LineShell.Session
import LineShell.Streams
import LineShell.Text.Argv

/-!
# Launching programs

A program runs in the working directory of the session. A file that is not a
program itself may name one on its first line, which then runs in its place
with the file as an argument.
-/

set_option autoImplicit false

namespace LineShell

namespace Program

def opening (p : Program) (args : List String) (dir : Location) : List (Channel × Bytes) :=
  let line (s : String) : Channel × Bytes := (.out, Utf8.ofString (s ++ "\n"))
  (if p.showsArguments then
    line (toString args.length) :: args.map (fun a => line ("[" ++ a ++ "]")) else []) ++
  (if p.showsDirectory then [line ("/" ++ "/".intercalate dir)] else [])

def closing (p : Program) : List (Channel × Bytes) := [(.out, p.out), (.err, p.err)]

/-- A signal counts from 128. -/
def exitStatus (p : Program) : Nat :=
  match p.signal with
  | some n => 128 + n
  | none => p.status % 256

end Program

/-- The files that are open for writing while a program is started. -/
def Job.writing (j : Job) : List Location :=
  (j.streams.stdout.toList ++ j.streams.stderr.toList).map (·.loc) ++ j.host.logPlace?.toList

namespace Launch

/-- The interpreter on the first line of a file, and the argument that may
follow it. Gaps at the end of the line do not count, unless the line has no end
of its own. -/
def interpreter? (content : Bytes) : Option (String × List String) :=
  match content with
  | 0x23 :: 0x21 :: rest =>
    let isGap (c : Char) : Bool := c = ' ' || c = '\t'
    let trimEnd (cs : List Char) : List Char := (cs.reverse.dropWhile isGap).reverse
    let text := rest.takeWhile (· ≠ 0)
    let isEnded := text.contains 0x0a
    let first := Utf8.decodeLossy (text.takeWhile (· ≠ 0x0a))
    let line := (if isEnded then trimEnd first else first).dropWhile isGap
    let name := line.takeWhile fun c => !isGap c
    let after := line.dropWhile fun c => !isGap c
    if isEnded && name.isEmpty then none
    else some (String.ofList name,
      if after.isEmpty then [] else [String.ofList (after.dropWhile isGap)])
  | _ => none

def interpreterLimit : Nat := 6

/-- The program that a path seen from a directory leads to, with its arguments.
A file that is open for writing cannot be run. A program counts for two files,
since an interpreter of its own runs it. -/
def program (t : FileTree) (dir : Location) (writing : List Location) :
    Nat → Path → List String → Except OsError (Program × List String)
  | depth, path, args =>
    match t.look dir path with
    | .error e => .error e
    | .ok (loc, node) =>
      if !node.isRunnable then .error .permissionDenied
      else if writing.contains loc then .error .fileBusy
      else match node, depth with
        | .program p, _ + 2 => .ok (p, args)
        | .file content _, depth + 1 =>
          match interpreter? content with
          | none => .error .execFormat
          | some (name, extra) =>
            program t dir writing depth ⟨name⟩ (extra ++ path.text :: args)
        | _, _ => .error .tooManyLinks

/-- Where the system looks for a program whose path has no slash: in the search
path of the process, seen from the directory it runs in. -/
def places (search : Option String) (path : Path) : List Path :=
  if path.text.toList.contains '/' then [path]
  else ((search.map SearchPath.split).getD []).map (·.join path.text)

/-- The first of the places that does not fail because nothing fit is there. -/
def firstProgram (t : FileTree) (dir : Location) (writing : List Location)
    (args : List String) : List Path → Except OsError (Program × List String)
  | [] => .error .notFound
  | [path] => program t dir writing interpreterLimit path args
  | path :: rest =>
    match program t dir writing interpreterLimit path args with
    | .error .notFound | .error .notDirectory | .error .permissionDenied =>
      firstProgram t dir writing args rest
    | found => found

def directory (t : FileTree) (start : Location) (cwd : Path) : Except OsError Location :=
  match t.look start cwd with
  | .ok (loc, .directory) => .ok loc
  | .ok _ => .error .notDirectory
  | .error e => .error e

def prepare (j : Job) (s : Session) (path : Path) (args : List String) :
    Except OsError (Program × List String × Location) :=
  if args.any fun a => a.toList.any (·.toNat = 0) then .error .nulInArgument
  else match directory j.host.tree j.host.start s.cwd with
    | .error e => .error e
    | .ok dir =>
      match firstProgram j.host.tree dir j.writing args (places j.host.path path) with
      | .error e => .error e
      | .ok (p, args) => .ok (p, args, dir)

/-- Writes what can be written; a program takes no notice of the rest. -/
def writeAll (j : Job) (writes : List (Channel × Bytes)) : Job :=
  writes.foldl (fun j w => (j.writeVia Job.inherit w.1 w.2).2) j

/-- The standard input of a program. The input of the shell is at its end by
then. -/
def input (j : Job) : Bytes :=
  match j.streams.stdin.bind j.host.tree.node? with
  | some (.file content _) => content
  | some (.program p) => p.source
  | _ => []

def perform (j : Job) (p : Program) (args : List String) (dir : Location) : Job :=
  let j := writeAll j (p.opening args dir)
  let j := if p.copiesInput then writeAll j [(.out, input j)] else j
  writeAll j p.closing

end Launch

end LineShell
