import LineShell.FileTree.Walk

/-!
# Open files

Files are opened for writing from their start or at their end. Each opening has
an offset of its own; what is written at the end goes to the end of the file as
it then is. The process may write wherever it likes: no permission bars it.
-/

set_option autoImplicit false

namespace LineShell

structure Handle where
  loc : Location
  /-- Where the next bytes go, unless they go to the end. -/
  offset : Nat
  atEnd : Bool
  deriving DecidableEq, Repr

def Handle.advance (h : Handle) (n : Nat) : Handle :=
  if h.atEnd then h else { h with offset := h.offset + n }

@[simp]
theorem Handle.loc_advance (h : Handle) (n : Nat) : (h.advance n).loc = h.loc := by
  unfold advance
  split <;> rfl

@[simp]
theorem Handle.atEnd_advance (h : Handle) (n : Nat) : (h.advance n).atEnd = h.atEnd := by
  unfold advance
  split <;> rfl

namespace FileTree

def newFileMode : Nat := 0o644

def programMode : Nat := 0o755

/-- Makes an empty file at a path that names nothing. Where something is, even
a link that leads nowhere, it stays as it is and the result tells so. -/
def create (t : FileTree) (start : Location) (p : Path) : Except OsError FileTree :=
  match t.follow start .makeNewFile p with
  | .ok (.vacant loc) => .ok (t.put loc (.file [] newFileMode))
  | .ok (.found _ _) => .error .alreadyExists
  | .error e => .error e

/-- Opens for writing; a missing file is made, and an existing one is emptied
unless writing goes to its end. -/
def openForWriting (t : FileTree) (start : Location) (atEnd : Bool) (p : Path) :
    Except OsError (FileTree × Handle) :=
  match t.follow start .makeFile p with
  | .error e => .error e
  | .ok (.vacant loc) => .ok (t.put loc (.file [] newFileMode), ⟨loc, 0, atEnd⟩)
  | .ok (.found loc node) =>
    match node with
    | .directory => .error .isDirectory
    | .file _ mode => .ok (if atEnd then t else t.put loc (.file [] mode), ⟨loc, 0, atEnd⟩)
    | .program _ => .ok (if atEnd then t else t.put loc (.file [] programMode), ⟨loc, 0, atEnd⟩)
    | .link _ | .device _ => .ok (t, ⟨loc, 0, atEnd⟩)

def overwrite (content : Bytes) (offset : Nat) (bs : Bytes) : Bytes :=
  content.take offset ++ List.replicate (offset - content.length) 0 ++ bs ++
    content.drop (offset + bs.length)

/-- Writes all the bytes, or none with an error. -/
def write (t : FileTree) (h : Handle) (bs : Bytes) : Except OsError (FileTree × Handle) :=
  let store (content : Bytes) (mode : Nat) : FileTree × Handle :=
    let offset := if h.atEnd then content.length else h.offset
    (t.put h.loc (.file (overwrite content offset bs) mode), h.advance bs.length)
  if bs.isEmpty then .ok (t, h)
  else match t.node? h.loc with
    | some (.file content mode) => .ok (store content mode)
    | some (.program p) => .ok (store p.source programMode)
    | some (.device .full) => .error .noSpace
    | _ => .ok (t, h)

def makeDirectory (t : FileTree) (start : Location) (p : Path) : Except OsError FileTree :=
  match t.follow start .makeDirectory p with
  | .ok (.vacant loc) => .ok (t.put loc .directory)
  | .ok (.found _ _) => .error .alreadyExists
  | .error e => .error e

/-- Makes the directory whose path has the given parts, last part first, and
the missing ones above it, as far as that goes. The flag tells whether the
directory is there in the end. -/
def makeDirectories (t : FileTree) (start : Location) : List String → FileTree × Bool
  | [] => (t, true)
  | part :: above =>
    if Path.isIdle part && !above.isEmpty then makeDirectories t start above
    else
      let p := Path.ofParts (part :: above).reverse
      match t.makeDirectory start p with
      | .ok made => (made, true)
      | .error .notFound =>
        match makeDirectories t start above with
        | (t, true) =>
          match t.makeDirectory start p with
          | .ok made => (made, true)
          | .error _ => (t, t.isDirectory start p)
        | (t, false) => (t, false)
      | .error _ => (t, t.isDirectory start p)

end FileTree

end LineShell
