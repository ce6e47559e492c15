import LineShell.Toml.Reader

/-!
# TOML strings

There are four styles: with or without escapes, on one line or on several.
-/

set_option autoImplicit false

namespace LineShell.Toml

def hexValue? (c : Char) : Option Nat :=
  if '0' ≤ c && c ≤ '9' then some (c.toNat - '0'.toNat)
  else if 'a' ≤ c && c ≤ 'f' then some (c.toNat - 'a'.toNat + 10)
  else if 'A' ≤ c && c ≤ 'F' then some (c.toNat - 'A'.toNat + 10)
  else none

def hexChar? (count : Nat) (cs : List Char) : Option (Char × List Char) :=
  match (cs.take count).mapM hexValue? with
  | none => none
  | some digits =>
    let n := digits.foldl (fun n d => 16 * n + d) 0
    if digits.length = count && n.isValidChar then some (Char.ofNat n, cs.drop count) else none

def escape? : List Char → Option (Char × List Char)
  | 'b' :: rest => some ('\x08', rest)
  | 't' :: rest => some ('\t', rest)
  | 'n' :: rest => some ('\n', rest)
  | 'f' :: rest => some ('\x0c', rest)
  | 'r' :: rest => some ('\r', rest)
  | '"' :: rest => some ('"', rest)
  | '\\' :: rest => some ('\\', rest)
  | 'u' :: rest => hexChar? 4 rest
  | 'U' :: rest => hexChar? 8 rest
  | _ => none

theorem hexChar?_length {count : Nat} {cs rest : List Char} {c : Char}
    (h : hexChar? count cs = some (c, rest)) : rest.length ≤ cs.length := by
  simp only [hexChar?] at h
  split at h
  · simp at h
  · split at h
    · simp only [Option.some.injEq, Prod.mk.injEq] at h
      rw [← h.2, List.length_drop]
      omega
    · simp at h

theorem escape?_length {cs rest : List Char} {c : Char} (h : escape? cs = some (c, rest)) :
    rest.length < cs.length := by
  unfold escape? at h
  split at h <;> first
    | (simp only [Option.some.injEq, Prod.mk.injEq] at h; simp [← h.2])
    | exact Nat.lt_succ_of_le (hexChar?_length h)
    | simp at h

structure Style where
  quote : Char
  escapes : Bool
  /-- The string may go on over several lines, between three quotes. -/
  lines : Bool
  deriving DecidableEq, Repr

/-- How many of up to five quotes stand at the front. Two before the closing
three belong to the string. -/
def quotes (q : Char) (cs : List Char) : Nat := ((cs.take 5).takeWhile (· = q)).length

def andThen (c : Char) (more : Option (List Char × List Char)) :
    Option (List Char × List Char) :=
  more.map fun r => (c :: r.1, r.2)

/-- The text of a string after its opening, and what follows its closing. -/
def stringBody? (style : Style) (cs : List Char) : Option (List Char × List Char) :=
  match cs with
  | [] => none
  | c :: rest =>
    if c = style.quote then
      if !style.lines then some ([], rest)
      else if quotes c cs < 3 then andThen c (stringBody? style rest)
      else some (List.replicate (quotes c cs - 3) c, cs.drop (quotes c cs))
    else if c = '\\' && style.escapes then
      match _h : if style.lines then lineBreak? (skipGaps rest) else none with
      | some after => stringBody? style (skipLines after)
      | none =>
        match _h : escape? rest with
        | some (e, after) => andThen e (stringBody? style after)
        | none => none
    else if isPlain c then andThen c (stringBody? style rest)
    else
      match _h : if style.lines then lineBreak? (c :: rest) else none with
      | some after => andThen '\n' (stringBody? style after)
      | none => none
termination_by cs.length
decreasing_by
  · simp
  · split at _h
    · have h1 := lineBreak?_length _h
      have h2 := skipLines_length after
      have h3 := length_dropWhile_le isGap rest
      simp only [skipGaps] at h1
      simp only [List.length_cons]
      omega
    · simp at _h
  · have h1 := escape?_length _h
    simp only [List.length_cons]
    omega
  · simp
  · split at _h
    · exact lineBreak?_length _h
    · simp at _h

theorem andThen_eq_some {c : Char} {more : Option (List Char × List Char)}
    {r : List Char × List Char} (h : andThen c more = some r) :
    ∃ s, more = some (s, r.2) ∧ r.1 = c :: s := by
  cases more with
  | none => simp [andThen] at h
  | some m =>
    simp only [andThen, Option.map_some, Option.some.injEq] at h
    exact ⟨m.1, by simp [← h], by simp [← h]⟩

theorem stringBody?_length {style : Style} {cs : List Char} :
    ∀ {r : List Char × List Char}, stringBody? style cs = some r → r.2.length < cs.length := by
  fun_induction stringBody? style cs with
  | case1 => simp
  | case2 =>
    intro r h
    simp only [Option.some.injEq] at h
    simp [← h]
  | case3 rest _ hq ih =>
    intro r h
    rw [if_pos hq] at h
    obtain ⟨s, hs, -⟩ := andThen_eq_some h
    exact Nat.lt_succ_of_lt (@ih (s, r.2) hs)
  | case4 rest _ hq =>
    intro r h
    rw [if_neg hq] at h
    simp only [Option.some.injEq] at h
    simp only [← h, List.length_drop, List.length_cons]
    omega
  | case5 c rest _ _ after hb ih =>
    intro r h
    split at hb
    · have h1 := lineBreak?_length hb
      have h2 := skipLines_length after
      have h3 := length_dropWhile_le isGap rest
      have h4 := ih h
      simp only [skipGaps] at h1
      simp only [List.length_cons]
      omega
    · simp at hb
  | case6 c rest _ _ _ e after he ih =>
    intro r h
    obtain ⟨s, hs, -⟩ := andThen_eq_some h
    have h1 := escape?_length he
    have h2 : r.2.length < after.length := @ih (s, r.2) hs
    simp only [List.length_cons]
    omega
  | case7 => simp
  | case8 c rest _ _ _ ih =>
    intro r h
    obtain ⟨s, hs, -⟩ := andThen_eq_some h
    exact Nat.lt_succ_of_lt (@ih (s, r.2) hs)
  | case9 c rest _ _ _ after hb ih =>
    intro r h
    obtain ⟨s, hs, -⟩ := andThen_eq_some h
    have h2 : r.2.length < after.length := @ih (s, r.2) hs
    split at hb
    · exact Nat.lt_trans h2 (lineBreak?_length hb)
    · simp at hb
  | case10 => simp

def oneLineString : Reader String where
  run
    | '"' :: rest => (stringBody? ⟨'"', true, false⟩ rest).map fun r => (String.ofList r.1, r.2)
    | '\x27' :: rest =>
      (stringBody? ⟨'\x27', false, false⟩ rest).map fun r => (String.ofList r.1, r.2)
    | _ => none
  shorter {cs rest s} h := by
    split at h <;> first
      | (obtain ⟨r, hr, he⟩ := Option.map_eq_some_iff.mp h
         simp only [Prod.mk.injEq] at he
         have := stringBody?_length hr
         simp only [List.length_cons, ← he.2]
         omega)
      | simp at h

/-- A string of any style. A line break right after three quotes is dropped. -/
def anyString : Reader String where
  run
    | '"' :: '"' :: '"' :: rest =>
      (stringBody? ⟨'"', true, true⟩ ((lineBreak? rest).getD rest)).map
        fun r => (String.ofList r.1, r.2)
    | '\x27' :: '\x27' :: '\x27' :: rest =>
      (stringBody? ⟨'\x27', false, true⟩ ((lineBreak? rest).getD rest)).map
        fun r => (String.ofList r.1, r.2)
    | cs => oneLineString.run cs
  shorter {cs rest s} h := by
    have hd : ∀ cs : List Char, ((lineBreak? cs).getD cs).length ≤ cs.length := by
      intro cs
      cases hb : lineBreak? cs with
      | none => simp
      | some after => exact Nat.le_of_lt (lineBreak?_length hb)
    split at h
    · rename_i body
      obtain ⟨r, hr, he⟩ := Option.map_eq_some_iff.mp h
      simp only [Prod.mk.injEq] at he
      have h1 := stringBody?_length hr
      have h2 := hd body
      simp only [List.length_cons, ← he.2]
      omega
    · rename_i body
      obtain ⟨r, hr, he⟩ := Option.map_eq_some_iff.mp h
      simp only [Prod.mk.injEq] at he
      have h1 := stringBody?_length hr
      have h2 := hd body
      simp only [List.length_cons, ← he.2]
      omega
    · exact oneLineString.shorter h

end LineShell.Toml
