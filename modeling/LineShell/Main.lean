import LineShell.CommandLine

/-!
# The program

Runs the command line on its standard input, over files that are kept in memory:
the home and the working directory, and the user's configuration.
-/

set_option autoImplicit false

namespace LineShell.Main

def directories (paths : List Path) : FileTree :=
  let devices : FileTree := ⟨[(["dev"], .directory), (["dev", "null"], .device .sink),
    (["dev", "full"], .device .full)]⟩
  paths.foldl (fun t p => (t.makeDirectories [] (Path.trimmed p.parts).reverse).1) devices

def addFile (t : FileTree) (p : Path) (content : Bytes) : FileTree :=
  let above := (p.parent?.map fun dir => (Path.trimmed dir.parts).reverse).getD []
  let t := (t.makeDirectories [] above).1
  match t.openForWriting [] false p with
  | .ok (t, handle) =>
    match t.write handle content with
    | .ok (t, _) => t
    | .error _ => t
  | .error _ => t

def host (t : FileTree) (cwd : Path) (env : Environment) : Host where
  tree := t
  start := match t.look [] cwd with
    | .ok (loc, _) => loc
    | .error _ => []
  path := env.path
  stdout := .opened false
  stderr := .empty
  journal := ⟨[], none, "00:00:00"⟩

def readText (path : String) : IO (Option String) :=
  try some <$> IO.FS.readFile path catch _ => pure none

def put (stream : IO.FS.Stream) (bs : Bytes) : IO Unit := do
  stream.write ⟨bs.toArray⟩
  stream.flush

end LineShell.Main

open LineShell in
def main (args : List String) : IO UInt32 := do
  let env : Environment := ⟨← IO.getEnv "HOME", ← IO.getEnv "PATH"⟩
  let cwd : Path := ⟨(← IO.getEnv "PWD").getD "/"⟩
  let home : Path := ⟨env.home.getD "/"⟩
  let overlay := home.join Config.overlayFile
  let tree := Main.directories [home, cwd]
  let tree := match ← Main.readText overlay.text with
    | some text => Main.addFile tree overlay (Utf8.ofString text)
    | none => tree
  let stdin ← IO.getStdin
  let isTerminal ← stdin.isTty
  let input ← if args.isEmpty then stdin.readBinToEnd else pure ByteArray.empty
  let events := input.toList.map Event.byte
  let (code, host) := CommandLine.run args env (Main.host tree cwd env) isTerminal events
  Main.put (← IO.getStdout) host.stdout.taken.bytes
  Main.put (← IO.getStderr) host.stderr.bytes
  return UInt32.ofNat code
