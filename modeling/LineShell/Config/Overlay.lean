import LineShell.Config.Decode

/-!
# Overlays

A user's own document changes some settings of a configuration. Directories are
added to the list and removed from it, or replace it altogether.
-/

set_option autoImplicit false

namespace LineShell.Config

open Toml (Value)

structure Overlay where
  prompt : Option String
  replace : Bool
  executables : Option Bool
  extraDirs : List String
  removedDirs : List String
  level : Option String
  logFile : Option String
  deriving DecidableEq, Repr

namespace Overlay

def ofDocument? (fields : List (String × Value)) : Option Overlay := do
  let prompt := settingsOf fields "prompt"
  let completion := settingsOf fields "completion"
  let logging := settingsOf fields "logging"
  return {
    prompt := ← optional string? (← slot? prompt "text" 0)
    replace := ← withDefault boolean? false (← slot? completion "replace" 0)
    executables := ← optional boolean? (← slot? completion "executables" 1)
    extraDirs := ← withDefault strings? [] (← slot? completion "extra_dirs" 2)
    removedDirs := ← withDefault strings? [] (← slot? completion "remove_extra_dirs" 3)
    level := ← optional string? (← slot? logging "level" 0)
    logFile := ← optional string? (← slot? logging "file" 1) }

end Overlay

/-- The items that are not there yet, each once, after the others. -/
def addMissing (base add : List String) : List String :=
  add.foldl (fun items item => if items.contains item then items else items ++ [item]) base

def mergeList (base add remove : List String) (replace : Bool) : List String :=
  if replace then add else addMissing (base.filter fun item => !remove.contains item) add

def apply (c : Config) (o : Overlay) : Config where
  prompt := o.prompt.getD c.prompt
  executables := o.executables.getD c.executables
  extraDirs := mergeList c.extraDirs o.extraDirs o.removedDirs o.replace
  level := o.level.getD c.level
  logFile := o.logFile.getD c.logFile

end LineShell.Config
