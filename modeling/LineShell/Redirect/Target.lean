import LineShell.FileTree.Open
import LineShell.Notice
import LineShell.Redirect.Basic

/-!
# Redirect targets

The word after an operator becomes a path and a mode. The directory of the path
has to be there, and a missing file that is to be overwritten is made at once,
so that it is there even if the command never runs.
-/

set_option autoImplicit false

namespace LineShell.Redirect

structure Target where
  path : Path
  mode : Mode
  deriving DecidableEq, Repr

inductive Error where
  | noSuchDirectory (path : Path)
  | createFailed (path : Path) (cause : OsError)
  | missingTarget (operator : String)
  deriving DecidableEq, Repr

def Error.message : Error → String
  | .noSuchDirectory path => s!"no such file or directory: {path.text}"
  | .createFailed path _ => s!"couldn't create the file to redirect to: {path.text}"
  | .missingTarget operator => s!"syntax error: missing redirect target after '{operator}'"

abbrev Table := Kind → Option Target

namespace Table

def empty : Table := fun _ => none

def set (t : Table) (k : Kind) (target : Target) : Table :=
  fun j => if j = k then some target else t j

theorem set_self (t : Table) (k : Kind) (target : Target) : t.set k target k = some target := by
  simp [set]

theorem set_of_ne (t : Table) {j k : Kind} (target : Target) (h : j ≠ k) :
    t.set k target j = t j := by
  simp [set, h]

/-- The target of a stream: the one to append to, if there is one. -/
def effective (t : Table) (write append : Kind) : Option Target :=
  (t append).or (t write)

def kinds (t : Table) : List Kind := Kind.all.filter fun k => (t k).isSome

end Table

/-- What resolving a target word gives. -/
structure Answer (σ : Type) where
  result : Except Error Target
  state : σ
  notices : List Notice

/-- Turns a target word into a target; the state is whatever earlier answers
left. -/
abbrev Resolver (σ : Type) := Kind → String → σ → Answer σ

def acceptAll : Resolver Unit :=
  fun k word _ => ⟨.ok ⟨⟨word⟩, k.mode⟩, (), []⟩

/-- Resolves against a base directory in a tree. `start` is the directory of
the process, where a relative base begins. -/
def resolveIn (start : Location) (base : Path) : Resolver FileTree := fun k word tree =>
  if word = "" then ⟨.error (.missingTarget k.operator), tree, []⟩
  else
    let path := base.join word
    if path.parent?.any fun parent => !tree.isDirectory start parent then
      ⟨.error (.noSuchDirectory path), tree, []⟩
    else match k.mode with
      | .append => ⟨.ok ⟨path, .append⟩, tree, []⟩
      | .truncate =>
        match tree.create start path with
        | .ok made =>
          let notice : Notice := ⟨.debug, s!"created redirect target {path.text}"⟩
          ⟨.ok ⟨path, .truncate⟩, made, [notice]⟩
        | .error .alreadyExists => ⟨.ok ⟨path, .truncate⟩, tree, []⟩
        | .error cause => ⟨.error (.createFailed path cause), tree, []⟩

end LineShell.Redirect
