import LineShell.Text.Cut

/-!
# Paths

A path is a text; everything here is about the text alone, without a look at
any file. Parts between slashes that are empty or a single dot are idle: they
do not change where a path leads.
-/

set_option autoImplicit false

namespace LineShell

structure Path where
  text : String
  deriving DecidableEq, Repr

/-- One step of a path, with the idle parts left out. -/
inductive Component where
  | root
  | here
  | up
  | name (s : String)
  deriving DecidableEq, Repr

namespace Path

def parts (p : Path) : List String := (cutAt '/' p.text.toList).map String.ofList

def startsAtRoot (s : String) : Bool := s.toList.head? = some '/'

def endsInSlash (s : String) : Bool := s.toList.getLast? = some '/'

def isAbsolute (p : Path) : Bool := startsAtRoot p.text

/-- The target as seen from the base. An absolute target stands for itself, and
an empty one adds a slash. -/
def join (base : Path) (target : String) : Path :=
  if startsAtRoot target then ⟨target⟩
  else if base.text = "" || endsInSlash base.text then ⟨base.text ++ target⟩
  else ⟨base.text ++ "/" ++ target⟩

def isIdle (part : String) : Bool := part = "" || part = "."

/-- A dot counts at the start of a relative path. -/
def components (p : Path) : List Component :=
  let step (part : String) : Component := if part = ".." then .up else .name part
  match p.parts with
  | [] => []
  | first :: rest =>
    let tail := (rest.filter fun s => !isIdle s).map step
    if p.isAbsolute then .root :: tail
    else if first = "" then tail
    else if first = "." then .here :: tail
    else step first :: tail

def same (p q : Path) : Bool := p.components = q.components

/-- The parts without the idle ones at the end; the first part always stays. -/
def trimmed : List String → List String
  | [] => []
  | first :: rest => first :: (rest.reverse.dropWhile isIdle).reverse

def ofParts (ps : List String) : Path :=
  if ps = [""] then ⟨"/"⟩ else ⟨"/".intercalate ps⟩

def parent? (p : Path) : Option Path :=
  match trimmed p.parts with
  | [] => none
  | first :: rest =>
    if rest.isEmpty then if first = "" then none else some ⟨""⟩
    else some (ofParts (trimmed (first :: rest.dropLast)))

/-- The names that are left when each step up removes the name before it. At
the start of the path there is nothing to remove. -/
def foldNames (names : List String) : Component → List String
  | .root => names
  | .here => names
  | .up => names.dropLast
  | .name s => names ++ [s]

def folded (p : Path) : Path :=
  let body := "/".intercalate (p.components.foldl foldNames [])
  if p.isAbsolute then ⟨"/" ++ body⟩ else ⟨body⟩

/-- The steps that a system takes along the path: all parts that are not empty. -/
def steps (p : Path) : List String := p.parts.filter (· ≠ "")

/-- A tilde that is the whole text or stands before a slash means home. -/
def expandTilde (home : Option String) (s : String) : String :=
  match s.toList, home with
  | '~' :: rest, some h =>
    if rest.isEmpty || rest.head? = some '/' then h ++ String.ofList rest else s
  | _, _ => s

end Path

end LineShell
