import LineShell.Redirect.Basic
import LineShell.Text.Blank

/-!
# Words

A line is cut at blanks into words. Quotes and backslashes keep a blank inside
a word and are removed; a redirect operator takes the word after it as its
target. Nothing is an error: an open quote or a last backslash ends with the
line.
-/

set_option autoImplicit false

namespace LineShell

inductive Word where
  | arg (text : String)
  /-- An operator as typed and its target, which is empty when the line ends
  right after the operator. -/
  | redirect (operator : String) (kind : Redirect.Kind) (target : String)
  deriving DecidableEq, Repr

namespace Word

inductive Quoting where
  | plain
  | escaped
  | single
  | double
  deriving DecidableEq, Repr

def escapable (c : Char) : Bool :=
  c = '\\' || c = '$' || c = '"' || c = '\n'

/-- The text of the word that the input starts with, and the input from the
blank that ends it. -/
def take : Quoting → List Char → List Char × List Char
  | _, [] => ([], [])
  | .escaped, c :: rest =>
    let (text, after) := take .plain rest
    (c :: text, after)
  | .single, c :: rest =>
    if c = '\x27' then take .plain rest
    else
      let (text, after) := take .single rest
      (c :: text, after)
  | .double, '\\' :: c :: rest =>
    if escapable c then
      let (text, after) := take .double rest
      (c :: text, after)
    else
      let (text, after) := take .double (c :: rest)
      ('\\' :: text, after)
  | .double, c :: rest =>
    if c = '"' then take .plain rest
    else
      let (text, after) := take .double rest
      (c :: text, after)
  | .plain, c :: rest =>
    if c = '\\' then take .escaped rest
    else if c = '\x27' then take .single rest
    else if c = '"' then take .double rest
    else if isBlank c then ([], c :: rest)
    else
      let (text, after) := take .plain rest
      (c :: text, after)

theorem take_length (q : Quoting) (cs : List Char) : (take q cs).2.length ≤ cs.length := by
  fun_induction take q cs <;> simp_all <;> omega

theorem take_shorter (c : Char) (rest : List Char) (h : isBlank c = false) :
    (take .plain (c :: rest)).2.length < (c :: rest).length := by
  have hle := fun q => take_length q rest
  have h1 := hle .plain
  have h2 := hle .escaped
  have h3 := hle .single
  have h4 := hle .double
  simp only [take, h, List.length_cons]
  split
  · omega
  · split
    · omega
    · split
      · omega
      · simp
        omega

/-- An operator at the start of the input: a descriptor, which may be missing,
and one or two arrows, with a blank right after them. -/
def operator? (cs : List Char) : Option (List Char × List Char) :=
  let digit := (cs.take 1).filter fun c => c = '0' || c = '1' || c = '2'
  let rest := cs.drop digit.length
  let arrows := rest.takeWhile (· = '>')
  let after := rest.dropWhile (· = '>')
  if (arrows.length = 1 || arrows.length = 2) && after.head?.any isBlank then
    some (digit ++ arrows, after)
  else none

theorem operator?_shorter {cs op after : List Char} (h : operator? cs = some (op, after)) :
    after.length < cs.length := by
  simp only [operator?] at h
  split at h
  · rename_i hc
    simp only [Option.some.injEq, Prod.mk.injEq] at h
    generalize hd : ((cs.take 1).filter fun c => c = '0' || c = '1' || c = '2').length = d at *
    have hlen := congrArg List.length (List.takeWhile_append_dropWhile
      (p := fun c => decide (c = '>')) (l := cs.drop d))
    simp only [List.length_append, List.length_drop] at hlen
    simp only [Bool.and_eq_true, Bool.or_eq_true, decide_eq_true_eq] at hc
    rw [← h.2]
    omega
  · simp at h

def ofText (waiting : Option String) (text : String) : Word :=
  match waiting with
  | none => arg text
  | some op => redirect op (.ofOperator op) text

theorem dropWhile_eq_cons {p : Char → Bool} {cs rest : List Char} {c : Char}
    (h : cs.dropWhile p = c :: rest) :
    p c = false ∧ (c :: rest).length ≤ cs.length := by
  constructor
  · have hp := List.head?_dropWhile_not p cs
    simpa [h] using hp
  · rw [← h]
    exact (List.dropWhile_suffix p).length_le

/-- The words of the input, when an operator may be waiting for its target. -/
def read (waiting : Option String) (cs : List Char) : List Word :=
  match _h : cs.dropWhile isBlank with
  | [] => (waiting.map fun op => redirect op (.ofOperator op) "").toList
  | c :: rest =>
    match _ho : if waiting.isNone then operator? (c :: rest) else none with
    | some (op, after) => read (some (String.ofList op)) after
    | none =>
      let word := take .plain (c :: rest)
      ofText waiting (String.ofList word.1) :: read none word.2
termination_by cs.length
decreasing_by
  all_goals obtain ⟨hc, hle⟩ := dropWhile_eq_cons _h
  · split at _ho
    · exact Nat.lt_of_lt_of_le (operator?_shorter _ho) hle
    · simp at _ho
  · exact Nat.lt_of_lt_of_le (take_shorter c rest hc) hle

end Word

def splitWords (line : String) : List Word := Word.read none line.toList

end LineShell
