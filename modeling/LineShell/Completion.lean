import LineShell.Text.Names
import LineShell.Text.Quoted

/-!
# Completion

What a TAB can make of the word before the cursor, given the candidate names.
Case counts. Only the set of the names that start with the word matters.
-/

set_option autoImplicit false

namespace LineShell.Completion

inductive Outcome where
  | none
  | unique (name : String)
  /-- All matches go on together beyond the typed word, up to this text. -/
  | extension (text : String)
  | ambiguous (names : List String)
  deriving DecidableEq, Repr

def startsWith (name typed : String) : Bool := typed.toList.isPrefixOf name.toList

def matching (typed : String) (candidates : List String) : List String :=
  Names.ofList (candidates.filter (startsWith · typed))

def complete (typed : String) (candidates : List String) : Outcome :=
  match matching typed candidates with
  | [] => .none
  | [name] => .unique name
  | names =>
    let common := Names.sharedByAll names
    if typed.toList.length < common.length then .extension (String.ofList common)
    else .ambiguous names

def Outcome.shown : Outcome → String
  | .none => "None"
  | .unique name => s!"Unique({quoted name})"
  | .extension text => s!"PartialExtension({quoted text})"
  | .ambiguous names => s!"Ambiguous({quotedList names})"

end LineShell.Completion
