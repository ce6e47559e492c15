import LineShell.Config.Overlay
import LineShell.FileTree.Walk
import LineShell.Toml.Document
import LineShell.Toml.Writer

/-!
# Loading and showing a configuration

The effective configuration is the standard one with the overlay of the user's
file, if there is such a file and it can be read.
-/

set_option autoImplicit false

namespace LineShell.Config

def overlayFile : String := ".config/keysh/config.toml"

/-- The text of a file, if it is one and all of it is text. -/
def fileText? (t : FileTree) (start : Location) (p : Path) : Option (List Char) :=
  match t.look start p with
  | .ok (_, .file content _) => Utf8.decode? content
  | .ok (_, .program p) => Utf8.decode? p.source
  | .ok (_, .device .sink) => some []
  | _ => none

/-- The effective configuration, and whether there was a file unfit for it. -/
def load (t : FileTree) (start : Location) (env : Environment) : Config × Bool :=
  match env.home.bind fun home => fileText? t start ((Path.mk home).join overlayFile) with
  | none => (standard, false)
  | some text =>
    match (Toml.parse? text).bind Overlay.ofDocument? with
    | none => (standard, true)
    | some overlay => (standard.apply overlay, false)

def ofText? (text : String) : Option Config := (Toml.parse? text.toList).bind ofDocument?

def toToml (c : Config) : String :=
  String.ofList <| ['\n'].intercalate [
    Toml.sectionText "prompt" [Toml.pairText "text" (Toml.stringText c.prompt)],
    Toml.sectionText "completion" [
      Toml.pairText "executables" (Toml.booleanText c.executables),
      Toml.pairText "extra_dirs" (Toml.arrayText c.extraDirs)],
    Toml.sectionText "logging" [
      Toml.pairText "level" (Toml.stringText c.level),
      Toml.pairText "file" (Toml.stringText c.logFile)]]

end LineShell.Config
