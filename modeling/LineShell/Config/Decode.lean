import LineShell.Config.Basic
import LineShell.Toml.Value

/-!
# Settings from values

A section is a table that gives settings by name, or an array that gives them
by position. Names that are not known are ignored, but a setting of the wrong
kind makes the whole document unfit.
-/

set_option autoImplicit false

namespace LineShell.Config

open Toml (Value)

inductive Slot where
  | given (v : Value)
  | absent
  /-- The array ends before it. -/
  | beyond

/-- The slot of a setting with a name and a position. A date has no settings. -/
def slot? (v : Value) (name : String) (position : Nat) : Option Slot :=
  match v with
  | .table fields => some (((fields.lookup name).map Slot.given).getD .absent)
  | .array items => some ((items[position]?.map Slot.given).getD .beyond)
  | .datetime => some .absent
  | _ => none

def string? : Value → Option String
  | .string s => some s
  | _ => none

def boolean? : Value → Option Bool
  | .boolean b => some b
  | _ => none

def strings? : Value → Option (List String)
  | .array items => items.mapM string?
  | _ => none

variable {α : Type}

def withDefault (read : Value → Option α) (default : α) : Slot → Option α
  | .given v => read v
  | .absent | .beyond => some default

/-- A setting that may be left out by name, but not by position. -/
def optional (read : Value → Option α) : Slot → Option (Option α)
  | .given v => (read v).map some
  | .absent => some none
  | .beyond => none

/-- The value of a section, an empty table if it is missing. -/
def settingsOf (fields : List (String × Value)) (name : String) : Value :=
  (fields.lookup name).getD (.table [])

def ofDocument? (fields : List (String × Value)) : Option Config := do
  let prompt := settingsOf fields "prompt"
  let completion := settingsOf fields "completion"
  let logging := settingsOf fields "logging"
  return {
    prompt := ← withDefault string? "$ " (← slot? prompt "text" 0)
    executables := ← withDefault boolean? false (← slot? completion "executables" 0)
    extraDirs := ← withDefault strings? [] (← slot? completion "extra_dirs" 1)
    level := ← withDefault string? "" (← slot? logging "level" 0)
    logFile := ← withDefault string? "" (← slot? logging "file" 1) }

end LineShell.Config
