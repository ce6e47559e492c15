import LineShell.Path
import LineShell.Text.Utf8

/-!
# File trees

A tree maps places to nodes. A place is the list of names from the root, which
is always a directory.
-/

set_option autoImplicit false

namespace LineShell

abbrev Location := List String

/-- A program by what it does when it runs, in the order of the fields. The bytes
of its file come last; they matter to those that read or write the file only. -/
structure Program where
  showsArguments : Bool
  showsDirectory : Bool
  copiesInput : Bool
  out : Bytes
  err : Bytes
  signal : Option Nat
  status : Nat
  source : Bytes := []
  deriving DecidableEq, Repr

inductive Device where
  | sink
  | full
  deriving DecidableEq, Repr

inductive Node where
  | directory
  | file (content : Bytes) (mode : Nat)
  | program (p : Program)
  | link (target : String)
  | device (d : Device)
  deriving DecidableEq, Repr

namespace Node

def executeBits : Nat := 0o111

def isRunnable : Node → Bool
  | file _ mode => mode &&& executeBits ≠ 0
  | program _ => true
  | _ => false

end Node

structure FileTree where
  entries : List (Location × Node)
  deriving DecidableEq, Repr

namespace FileTree

def node? (t : FileTree) (loc : Location) : Option Node :=
  if loc = [] then some .directory else t.entries.lookup loc

def put (t : FileTree) (loc : Location) (n : Node) : FileTree :=
  ⟨(loc, n) :: t.entries.filter (·.1 ≠ loc)⟩

def prune (t : FileTree) (loc : Location) : FileTree :=
  ⟨t.entries.filter fun e => !loc.isPrefixOf e.1⟩

def names (t : FileTree) (loc : Location) : List String :=
  t.entries.filterMap fun e =>
    if loc.isPrefixOf e.1 && e.1.length = loc.length + 1 then e.1.getLast? else none

theorem lookup_filter_ne {a b : Location} {es : List (Location × Node)} (h : b ≠ a) :
    (es.filter (·.1 ≠ a)).lookup b = es.lookup b := by
  induction es with
  | nil => rfl
  | cons e es ih =>
    obtain ⟨k, n⟩ := e
    by_cases hk : k = a
    · subst hk
      have hb : (b == k) = false := by simpa using h
      rw [List.filter_cons_of_neg (by simp), ih, List.lookup_cons, hb]
    · rw [List.filter_cons_of_pos (by simpa using hk), List.lookup_cons, List.lookup_cons, ih]

theorem node?_put_self {t : FileTree} {a : Location} {n : Node} (h : a ≠ []) :
    (t.put a n).node? a = some n := by
  simp [node?, put, h]

theorem node?_put_ne {t : FileTree} {a b : Location} {n : Node} (h : b ≠ a) :
    (t.put a n).node? b = t.node? b := by
  have hb : (b == a) = false := by simpa using h
  simp only [node?, put, List.lookup_cons, hb, lookup_filter_ne h]

end FileTree

end LineShell
