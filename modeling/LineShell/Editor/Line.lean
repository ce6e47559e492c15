import LineShell.Completion
import LineShell.Editor.Key
import LineShell.Notice

/-!
# The edited line

The line under the cursor and what each key does to it. The cursor is always at
the end; what is echoed keeps the screen in step, with a carriage return before
every line feed.
-/

set_option autoImplicit false

namespace LineShell

structure Line where
  /-- The text before the cursor, last character first. -/
  before : List Char
  /-- A backslash that is not itself escaped was just typed, so that Enter
  goes on with the line. -/
  escaped : Bool
  /-- The last keys were TABs that changed nothing. They are not counted: a run of
  2 ^ 32 of them, which overflows a counter, is not modelled. -/
  tabbed : Bool
  deriving DecidableEq, Repr

structure Setup where
  prompt : String
  candidates : String → List String
  /-- When off, TAB is a character like others. -/
  completing : Bool

namespace Line

def empty : Line := ⟨[], false, false⟩

def text (l : Line) : List Char := l.before.reverse

def endsEscaped (before : List Char) : Bool :=
  (before.takeWhile (· = '\\')).length % 2 = 1

def currentWord (l : Line) : List Char :=
  (l.before.takeWhile fun c => !isBlank c).reverse

def newline : List Char := ['\r', '\n']

def bell : List Char := ['\x07']

def rubout : List Char := ['\x08', ' ', '\x08']

/-- What a key does: it changes the line, with pieces to echo and notices to
log, or it ends the reading. -/
inductive Response where
  | edit (line : Line) (echo : List (List Char)) (notices : List Notice)
  | finish (result : Except ReadError String)

def type (l : Line) (text : List Char) : Line :=
  ⟨text.reverse ++ l.before, text = ['\\'] && !l.escaped, false⟩

def append (l : Line) (text : List Char) : Line :=
  let before := text.reverse ++ l.before
  ⟨before, endsEscaped before, true⟩

def complete (setup : Setup) (l : Line) : Response :=
  let word := l.currentWord
  if word.isEmpty then .edit { l with tabbed := true } [bell] []
  else
    let typed := String.ofList word
    let outcome := Completion.complete typed (setup.candidates typed)
    let notices : List Notice := [⟨.trace, s!"completion for {quoted typed}: {outcome.shown}"⟩]
    match outcome with
    | .none => .edit { l with tabbed := true } [bell] notices
    | .unique name =>
      let rest := name.toList.drop word.length ++ [' ']
      .edit (l.append rest) [rest] notices
    | .extension text =>
      let rest := text.toList.drop word.length
      .edit (l.append rest) [rest] notices
    | .ambiguous names =>
      if l.tabbed then
        let listing := ("  ".intercalate names).toList
        .edit l [newline, listing, newline, setup.prompt.toList, l.text] notices
      else .edit { l with tabbed := true } [bell] notices

def respond (setup : Setup) (l : Line) : Key → Response
  | .typed text => .edit (l.type text) [text] []
  | .enter =>
    if l.escaped then .edit ⟨'\n' :: l.before, false, false⟩ [newline] []
    else .finish (.ok (String.ofList l.text))
  | .erase =>
    let before := l.before.tail
    .edit ⟨before, endsEscaped before, false⟩ (if l.before.isEmpty then [] else [rubout]) []
  | .tab => if setup.completing then complete setup l else .edit (l.type ['\t']) [['\t']] []
  | .abort reason => .finish (.error (.abort reason))
  | .idle => .edit { l with tabbed := false } [] []

end Line

end LineShell
