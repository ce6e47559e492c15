import LineShell.Redirect.Target
import LineShell.Text.Quoted
import LineShell.Word

/-!
# Commands

A line is one command: its name, its arguments and its redirects. A redirect
that cannot be resolved is dropped and reported; the rest of the line stands.
-/

set_option autoImplicit false

namespace LineShell

structure Resolved (σ : Type) where
  /-- The words that are not part of a redirect. -/
  texts : List String
  redirects : Redirect.Table
  errors : List Redirect.Error
  notices : List Notice
  state : σ

namespace Resolved

variable {σ : Type}

def start (s : σ) : Resolved σ := ⟨[], .empty, [], [], s⟩

def step (resolve : Redirect.Resolver σ) (r : Resolved σ) : Word → Resolved σ
  | .arg text => { r with texts := r.texts ++ [text] }
  | .redirect operator kind target =>
    if target = "" then { r with errors := r.errors ++ [.missingTarget operator] }
    else
      let answer := resolve kind target r.state
      let r := { r with state := answer.state, notices := r.notices ++ answer.notices }
      match answer.result with
      | .ok found => { r with redirects := r.redirects.set kind found }
      | .error e =>
        { r with
          errors := r.errors ++ [e]
          notices := r.notices ++
            [⟨.warn, s!"dropping redirect {operator} {target}: {e.message}"⟩] }

def ofWords (resolve : Redirect.Resolver σ) (s : σ) (words : List Word) : Resolved σ :=
  words.foldl (step resolve) (start s)

def ofLine (resolve : Redirect.Resolver σ) (s : σ) (line : String) : Resolved σ :=
  ofWords resolve s (splitWords line)

end Resolved

structure Command where
  name : String
  args : List String
  redirects : Redirect.Table

/-- The command of a line. A line with redirects alone has none. -/
def Resolved.command? {σ : Type} (r : Resolved σ) : Option Command :=
  match r.texts with
  | [] => none
  | name :: args => some ⟨name, args, r.redirects⟩

def Command.summary (c : Command) : String :=
  let operators := c.redirects.kinds.map (·.operator)
  s!"parsed {quoted c.name}: {c.args.length} arg(s), redirects {quotedList operators}"

end LineShell
