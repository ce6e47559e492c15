/-!
# System errors

The ways in which a request to the system fails, with the system's own words.
-/

set_option autoImplicit false

namespace LineShell

inductive OsError where
  | notFound
  | execFormat
  | permissionDenied
  | alreadyExists
  | notDirectory
  | isDirectory
  | fileBusy
  | noSpace
  | nameTooLong
  | tooManyLinks
  | nulInPath
  | nulInArgument
  | other (text : String)
  deriving DecidableEq, Repr

namespace OsError

/-- The number, kind and description of an error that the system reports by
number. -/
def numbered? : OsError → Option (Nat × String × String)
  | notFound => some (2, "NotFound", "No such file or directory")
  | execFormat => some (8, "Uncategorized", "Exec format error")
  | permissionDenied => some (13, "PermissionDenied", "Permission denied")
  | alreadyExists => some (17, "AlreadyExists", "File exists")
  | notDirectory => some (20, "NotADirectory", "Not a directory")
  | isDirectory => some (21, "IsADirectory", "Is a directory")
  | fileBusy => some (26, "ExecutableFileBusy", "Text file busy")
  | noSpace => some (28, "StorageFull", "No space left on device")
  | nameTooLong => some (36, "InvalidFilename", "File name too long")
  | tooManyLinks => some (40, "FilesystemLoop", "Too many levels of symbolic links")
  | nulInPath | nulInArgument | other _ => none

def message (e : OsError) : String :=
  match e.numbered? with
  | some (number, _, text) => s!"{text} (os error {number})"
  | none =>
    match e with
    | nulInPath => "file name contained an unexpected NUL byte"
    | nulInArgument => "nul byte found in provided data"
    | other text => text
    | _ => ""

def shown (e : OsError) : String :=
  match e.numbered? with
  | some (number, kind, text) =>
    s!"Os \x7b code: {number}, kind: {kind}, message: \"{text}\" \x7d"
  | none => s!"Custom \x7b kind: Other, error: \"{e.message}\" \x7d"

end OsError

end LineShell
