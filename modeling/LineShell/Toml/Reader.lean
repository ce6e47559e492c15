/-!
# Readers

A reader takes something from the front of a text and leaves the rest, which is
always shorter; so reading again and again comes to an end.
-/

set_option autoImplicit false

namespace LineShell.Toml

structure Reader (α : Type) where
  run : List Char → Option (α × List Char)
  shorter : ∀ {cs rest : List Char} {a : α}, run cs = some (a, rest) → rest.length < cs.length

theorem length_dropWhile_le {α : Type} (p : α → Bool) (cs : List α) :
    (cs.dropWhile p).length ≤ cs.length :=
  (List.dropWhile_suffix p).length_le

def isGap (c : Char) : Bool := c = ' ' || c = '\t'

def skipGaps (cs : List Char) : List Char := cs.dropWhile isGap

/-- The text after a line break, which is a line feed that a carriage return
may precede. -/
def lineBreak? : List Char → Option (List Char)
  | '\n' :: rest => some rest
  | '\r' :: '\n' :: rest => some rest
  | _ => none

theorem lineBreak?_length {cs rest : List Char} (h : lineBreak? cs = some rest) :
    rest.length < cs.length := by
  unfold lineBreak? at h
  split at h
  · simp only [Option.some.injEq] at h
    simp only [h, List.length_cons]
    omega
  · simp only [Option.some.injEq] at h
    simp only [h, List.length_cons]
    omega
  · simp at h

/-- A character that stands for itself in strings and comments. -/
def isPlain (c : Char) : Bool := c = '\t' || 0x20 ≤ c.toNat && c.toNat ≠ 0x7f

def skipLines : List Char → List Char
  | '\r' :: '\n' :: rest => skipLines rest
  | c :: rest => if isGap c || c = '\n' then skipLines rest else c :: rest
  | [] => []

theorem skipLines_length (cs : List Char) : (skipLines cs).length ≤ cs.length := by
  fun_induction skipLines cs <;> simp_all <;> omega

def skipComments (cs : List Char) : List Char :=
  match _h : skipLines cs with
  | '#' :: rest => skipComments (rest.dropWhile isPlain)
  | rest => rest
termination_by cs.length
decreasing_by
  have h1 := skipLines_length cs
  have h2 := length_dropWhile_le isPlain rest
  rw [_h] at h1
  simp only [List.length_cons] at h1
  omega

theorem skipComments_length (cs : List Char) : (skipComments cs).length ≤ cs.length := by
  fun_induction skipComments cs with
  | case1 cs rest h ih =>
    have h1 := skipLines_length cs
    have h2 := length_dropWhile_le isPlain rest
    simp only [h, List.length_cons] at h1
    omega
  | case2 cs => exact skipLines_length cs

def skipComment (cs : List Char) : List Char :=
  match skipGaps cs with
  | '#' :: comment => comment.dropWhile isPlain
  | rest => rest

theorem skipComment_length (cs : List Char) : (skipComment cs).length ≤ cs.length := by
  have h1 := length_dropWhile_le isGap cs
  simp only [skipComment]
  split
  · rename_i comment hg
    have h2 := length_dropWhile_le isPlain comment
    simp only [skipGaps] at hg
    rw [hg, List.length_cons] at h1
    omega
  · exact h1

/-- The text after the rest of a line on which nothing but a comment may
stand. -/
def lineEnd? (cs : List Char) : Option (List Char) :=
  if (skipComment cs).isEmpty then some [] else lineBreak? (skipComment cs)

theorem lineEnd?_length {cs rest : List Char} (h : lineEnd? cs = some rest) :
    rest.length ≤ cs.length := by
  have h1 := skipComment_length cs
  simp only [lineEnd?] at h
  split at h
  · simp only [Option.some.injEq] at h
    simp [← h]
  · have h2 := lineBreak?_length h
    omega

end LineShell.Toml
