import LineShell.Text.Utf8

/-!
# Written argument lists

A word that may hold anything is cut into chunks. A chunk goes on as long as
one style of quoting fits all of it, and the plainest such style is used.
-/

set_option autoImplicit false

namespace LineShell.Argv

/-- The styles that are still possible for a chunk. -/
structure Styles where
  bare : Bool
  single : Bool
  double : Bool
  deriving DecidableEq, Repr

namespace Styles

def any (s : Styles) : Bool := s.bare || s.single || s.double

def both (s t : Styles) : Styles where
  bare := s.bare && t.bare
  single := s.single && t.single
  double := s.double && t.double

end Styles

def isBare (c : Char) : Bool :=
  c.isAlphanum || c = '+' || c = '-' || c = '.' || c = '/' || c = ':' || c = '@' || c = ']' ||
    c = '_'

def stylesOf (c : Char) : Styles where
  bare := isBare c
  single := !(c = '\x27' || c = '^' || c = '\\')
  double := !(c = '\x60' || c = '$' || c = '!' || c = '^')

/-- The rest of a chunk that the given styles fit so far, the styles that fit
all of it, and the input after it. -/
def extend (s : Styles) : List Char → List Char × Styles × List Char
  | [] => ([], s, [])
  | c :: rest =>
    let t := s.both (stylesOf c)
    if t.any then
      let (chunk, u, after) := extend t rest
      (c :: chunk, u, after)
    else ([], s, c :: rest)

theorem extend_length (s : Styles) (cs : List Char) :
    (extend s cs).2.2.length ≤ cs.length := by
  induction cs generalizing s with
  | nil => simp [extend]
  | cons c rest ih =>
    simp only [extend]
    split
    · exact Nat.le_succ_of_le (ih _)
    · simp

def quoteChunk (s : Styles) (chunk : List Char) : List Char :=
  if s.bare then chunk
  else if s.single then '\x27' :: chunk ++ ['\x27']
  else
    '"' :: chunk.flatMap (fun c => if c = '"' || c = '\\' then ['\\', c] else [c]) ++ ['"']

/-- A caret can stand only at the start of a chunk, which then takes single
quotes. -/
def firstStyles (c : Char) : Styles :=
  if c = '^' then ⟨false, true, false⟩ else stylesOf c

def quoteChunks : List Char → List Char
  | [] => []
  | c :: rest =>
    let parts := extend (firstStyles c) rest
    quoteChunk parts.2.1 (c :: parts.1) ++ quoteChunks parts.2.2
termination_by cs => cs.length
decreasing_by
  exact Nat.lt_succ_of_le (extend_length _ _)

def quoteWord (word : String) : String :=
  if word = "" then "\x27\x27" else String.ofList (quoteChunks word.toList)

/-- The words of an argument list in one line. A word with the character NUL
has no written form; then only the first word is shown, as it is. -/
def render (words : List String) : String :=
  if words.any fun w => w.toList.any (·.toNat = 0) then words.headD ""
  else " ".intercalate (words.map quoteWord)

end LineShell.Argv
