import LineShell.Toml.Values

/-!
# TOML documents

A document is a sequence of lines: pairs, headers of tables, comments and blank
lines. A pair belongs to the table of the last header before it.
-/

set_option autoImplicit false

namespace LineShell.Toml

/-- The tables so far and the path of the last header. -/
structure Progress where
  fields : Tables.Fields
  current : List String

namespace Progress

def start : Progress := ⟨[], []⟩

def addPair? (p : Progress) (path : List String) (v : Value) : Option Progress :=
  (Tables.addPairAt p.fields p.current path v).map fun fields => { p with fields }

def openTable? (p : Progress) (path : List String) : Option Progress :=
  (Tables.openTable p.fields path).map fun fields => ⟨fields, path⟩

def openElement? (p : Progress) (path : List String) : Option Progress :=
  (Tables.openElement p.fields path).map fun fields => ⟨fields, path⟩

end Progress

def header? (closing : Nat) (cs : List Char) : Option (List String × List Char) :=
  match key.run cs with
  | none => none
  | some (path, rest) =>
    if rest.take closing = List.replicate closing ']' then some (path, rest.drop closing)
    else none

theorem header?_length {closing : Nat} {cs : List Char} {r : List String × List Char}
    (h : header? closing cs = some r) : r.2.length < cs.length := by
  simp only [header?] at h
  split at h
  · simp at h
  · rename_i path rest hk
    have h1 := key.shorter hk
    split at h
    · simp only [Option.some.injEq] at h
      rw [← h]
      simp only [List.length_drop]
      omega
    · simp at h

def statement? (p : Progress) (cs : List Char) : Option (Progress × List Char) :=
  match cs with
  | '[' :: '[' :: rest =>
    match header? 2 rest with
    | none => none
    | some (path, after) => (p.openElement? path).map (·, after)
  | '[' :: rest =>
    match header? 1 rest with
    | none => none
    | some (path, after) => (p.openTable? path).map (·, after)
  | cs =>
    match (pair (value (depthLimit - 1))).run cs with
    | none => none
    | some ((path, v), after) => (p.addPair? path v).map (·, after)

theorem statement?_length {p : Progress} {cs : List Char} {r : Progress × List Char}
    (h : statement? p cs = some r) : r.2.length < cs.length := by
  simp only [statement?] at h
  split at h
  · split at h
    · simp at h
    · rename_i rest _ path after hh
      obtain ⟨q, -, he⟩ := Option.map_eq_some_iff.mp h
      have h1 : after.length < rest.length := header?_length hh
      simp only [List.length_cons, ← he]
      omega
  · split at h
    · simp at h
    · rename_i rest _ _ path after hh
      obtain ⟨q, -, he⟩ := Option.map_eq_some_iff.mp h
      have h1 : after.length < rest.length := header?_length hh
      simp only [List.length_cons, ← he]
      omega
  · split at h
    · simp at h
    · rename_i hp
      obtain ⟨q, -, he⟩ := Option.map_eq_some_iff.mp h
      simp only [← he]
      exact Reader.shorter _ hp

def lines? (p : Progress) (cs : List Char) : Option Progress :=
  match _h : skipComments cs with
  | [] => some p
  | c :: rest =>
    match _hs : statement? p (c :: rest) with
    | none => none
    | some (q, after) =>
      match _hl : lineEnd? after with
      | none => none
      | some next => lines? q next
termination_by cs.length
decreasing_by
  have h1 := skipComments_length cs
  have h2 : after.length < (c :: rest).length := statement?_length _hs
  have h3 := lineEnd?_length _hl
  rw [_h] at h1
  omega

def byteOrderMark : Char := '\ufeff'

/-- The fields of the document with this text. A byte order mark may stand
before it. -/
def parse? (text : List Char) : Option (List (String × Value)) :=
  let text := if text.head? = some byteOrderMark then text.tail else text
  (lines? .start text).map fun p => Tables.close p.fields

end LineShell.Toml
