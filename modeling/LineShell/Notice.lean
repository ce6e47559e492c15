import LineShell.Text.Blank

/-!
# Notices

What the shell reports about its own work, apart from its output. Each notice
has a level; a threshold lets through the levels up to it.
-/

set_option autoImplicit false

namespace LineShell

inductive Level where
  | error
  | warn
  | info
  | debug
  | trace
  deriving DecidableEq, Repr

namespace Level

def all : List Level := [error, warn, info, debug, trace]

def name : Level → String
  | error => "error"
  | warn => "warn"
  | info => "info"
  | debug => "debug"
  | trace => "trace"

def detail : Level → Nat
  | error => 1
  | warn => 2
  | info => 3
  | debug => 4
  | trace => 5

def admits (threshold level : Level) : Bool := level.detail ≤ threshold.detail

/-- The threshold that a text names, in any case and between blanks. Any other
text names none, which turns the log off. -/
def ofText? (s : String) : Option Level :=
  let word := (trimBlanks s.toList).map Char.toLower
  all.find? fun l => l.name.toList = word

end Level

structure Notice where
  level : Level
  message : String
  deriving DecidableEq, Repr

end LineShell
