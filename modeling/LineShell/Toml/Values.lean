import LineShell.Toml.Scalar
import LineShell.Toml.Tables

/-!
# Keys and values

A key is a path of parts with points between them. Values nest in arrays and
inline tables, to a limited depth.
-/

set_option autoImplicit false

namespace LineShell.Toml

/-- Neither a key nor the nesting of a value goes as deep as this. -/
def depthLimit : Nat := 80

def isBareKeyChar (c : Char) : Bool := c.isAlphanum || c = '_' || c = '-'

def bareKey : Reader String where
  run cs :=
    if cs.takeWhile isBareKeyChar = [] then none
    else some (String.ofList (cs.takeWhile isBareKeyChar), cs.dropWhile isBareKeyChar)
  shorter {cs rest s} h := by
    have hlen := congrArg List.length
      (List.takeWhile_append_dropWhile (p := isBareKeyChar) (l := cs))
    rw [List.length_append] at hlen
    split at h
    · simp at h
    · rename_i hne
      have hpos := List.length_pos_iff.mpr hne
      simp only [Option.some.injEq, Prod.mk.injEq] at h
      rw [← h.2]
      omega

def keyPart : Reader String where
  run cs := (oneLineString.run cs).or (bareKey.run cs)
  shorter {cs rest s} h := by
    rcases Option.or_eq_some_iff.mp h with h | ⟨-, h⟩
    · exact oneLineString.shorter h
    · exact bareKey.shorter h

def keyParts (cs : List Char) : Option (List String × List Char) :=
  match _h : keyPart.run (skipGaps cs) with
  | none => none
  | some (part, rest) =>
    match _hr : skipGaps rest with
    | '.' :: after => (keyParts after).map fun r => (part :: r.1, r.2)
    | after => some ([part], after)
termination_by cs.length
decreasing_by
  have h1 := keyPart.shorter _h
  have h2 := length_dropWhile_le isGap cs
  have h3 := length_dropWhile_le isGap rest
  simp only [skipGaps] at h1 _hr
  rw [_hr, List.length_cons] at h3
  omega

theorem keyParts_length {cs : List Char} :
    ∀ {r : List String × List Char}, keyParts cs = some r → r.2.length < cs.length := by
  fun_induction keyParts cs with
  | case1 => simp
  | case2 cs part rest hp after hr ih =>
    intro r h
    obtain ⟨t, ht, he⟩ := Option.map_eq_some_iff.mp h
    have h1 := keyPart.shorter hp
    have h2 := length_dropWhile_le isGap cs
    have h3 := length_dropWhile_le isGap rest
    have h4 := ih ht
    simp only [skipGaps] at h1 hr
    rw [hr, List.length_cons] at h3
    rw [← he]
    simp only
    omega
  | case3 cs part rest hp =>
    intro r h
    have h1 := keyPart.shorter hp
    have h2 := length_dropWhile_le isGap cs
    have h3 := length_dropWhile_le isGap rest
    simp only [Option.some.injEq] at h
    simp only [skipGaps] at h1
    rw [← h]
    simp only [skipGaps]
    omega

def key : Reader (List String) where
  run cs := (keyParts cs).filter fun r => r.1.length < depthLimit
  shorter h := keyParts_length (Option.filter_eq_some_iff.mp h).1

def pair (value : Reader Value) : Reader (List String × Value) where
  run cs :=
    match key.run cs with
    | some (path, '=' :: rest) =>
      (value.run (skipGaps rest)).map fun r => ((path, r.1), skipGaps r.2)
    | _ => none
  shorter {cs rest a} h := by
    split at h
    · rename_i path after hk
      obtain ⟨r, hr, he⟩ := Option.map_eq_some_iff.mp h
      have h1 := key.shorter hk
      have h2 := value.shorter hr
      have h3 := length_dropWhile_le isGap after
      have h4 := length_dropWhile_le isGap r.2
      simp only [Prod.mk.injEq] at he
      simp only [List.length_cons] at h1
      simp only [skipGaps] at h2 he
      rw [← he.2]
      omega
    · simp at h

def arrayItems (value : Reader Value) (cs : List Char) : Option (List Value × List Char) :=
  match _hc : skipComments cs with
  | ']' :: rest => some ([], rest)
  | start =>
    match _hv : value.run start with
    | none => none
    | some (v, rest) =>
      match _hr : skipComments rest with
      | ',' :: after => (arrayItems value after).map fun r => (v :: r.1, r.2)
      | ']' :: after => some ([v], after)
      | _ => none
termination_by cs.length
decreasing_by
  have h1 := skipComments_length cs
  have h2 := value.shorter _hv
  have h3 := skipComments_length rest
  rw [_hr, List.length_cons] at h3
  rw [_hc] at h1
  omega

theorem arrayItems_length {value : Reader Value} {cs : List Char} :
    ∀ {r : List Value × List Char}, arrayItems value cs = some r → r.2.length < cs.length := by
  fun_induction arrayItems value cs with
  | case1 cs rest hc =>
    intro r h
    have h1 := skipComments_length cs
    simp only [Option.some.injEq] at h
    rw [hc, List.length_cons] at h1
    rw [← h]
    simp only
    omega
  | case2 => simp
  | case3 cs _ rest after hr _ hv ih =>
    intro r h
    obtain ⟨t, ht, he⟩ := Option.map_eq_some_iff.mp h
    have h1 := skipComments_length cs
    have h2 := value.shorter hv
    have h3 := skipComments_length rest
    have h4 := ih ht
    rw [hr, List.length_cons] at h3
    rw [← he]
    simp only
    omega
  | case4 cs _ rest after hr _ hv =>
    intro r h
    have h1 := skipComments_length cs
    have h2 := value.shorter hv
    have h3 := skipComments_length rest
    simp only [Option.some.injEq] at h
    rw [hr, List.length_cons] at h3
    rw [← h]
    simp only
    omega
  | case5 => simp

def inlinePairs (value : Reader Value) (cs : List Char) :
    Option (List (List String × Value) × List Char) :=
  match _hp : (pair value).run cs with
  | some (p, ',' :: after) => (inlinePairs value after).map fun r => (p :: r.1, r.2)
  | some (p, '\x7d' :: after) => some ([p], after)
  | _ => none
termination_by cs.length
decreasing_by
  have h1 := (pair value).shorter _hp
  simp only [List.length_cons] at h1
  omega

theorem inlinePairs_length {value : Reader Value} {cs : List Char} :
    ∀ {r : List (List String × Value) × List Char}, inlinePairs value cs = some r →
      r.2.length < cs.length := by
  fun_induction inlinePairs value cs with
  | case1 cs p after hp ih =>
    intro r h
    obtain ⟨t, ht, he⟩ := Option.map_eq_some_iff.mp h
    have h1 := (pair value).shorter hp
    have h2 := ih ht
    simp only [List.length_cons] at h1
    rw [← he]
    simp only
    omega
  | case2 cs p after hp =>
    intro r h
    have h1 := (pair value).shorter hp
    simp only [List.length_cons] at h1
    simp only [Option.some.injEq] at h
    rw [← h]
    simp only
    omega
  | case3 => simp

def inlineTable? (value : Reader Value) (cs : List Char) : Option (Value × List Char) :=
  match skipGaps cs with
  | '\x7d' :: rest => some (.table [], rest)
  | _ =>
    match inlinePairs value cs with
    | none => none
    | some (pairs, rest) => (Tables.ofPairs? pairs).map fun t => (.table (Tables.close t), rest)

theorem inlineTable?_length {value : Reader Value} {cs : List Char} {r : Value × List Char}
    (h : inlineTable? value cs = some r) : r.2.length < cs.length := by
  simp only [inlineTable?] at h
  split at h
  · rename_i rest hg
    have h1 := length_dropWhile_le isGap cs
    simp only [skipGaps] at hg
    rw [hg, List.length_cons] at h1
    simp only [Option.some.injEq] at h
    rw [← h]
    simp only
    omega
  · split at h
    · simp at h
    · rename_i pairs rest hp
      obtain ⟨t, -, he⟩ := Option.map_eq_some_iff.mp h
      rw [← he]
      exact inlinePairs_length hp

/-- A value in which arrays and inline tables nest less than `depth` deep. -/
def value : Nat → Reader Value
  | 0 => scalarOrString
  | depth + 1 =>
    let inner := value depth
    { run := fun
        | '[' :: rest => (arrayItems inner rest).map fun r => (.array r.1, r.2)
        | '\x7b' :: rest => inlineTable? inner rest
        | cs => scalarOrString.run cs
      shorter := by
        intro cs rest v h
        split at h
        · obtain ⟨r, hr, he⟩ := Option.map_eq_some_iff.mp h
          have h1 := arrayItems_length hr
          simp only [Prod.mk.injEq] at he
          rw [← he.2]
          exact Nat.lt_succ_of_lt h1
        · exact Nat.lt_succ_of_lt (inlineTable?_length h)
        · exact scalarOrString.shorter h }
where
  scalarOrString : Reader Value :=
    { run := fun cs => ((anyString.run cs).map fun r => (.string r.1, r.2)).or (scalar.run cs)
      shorter := by
        intro cs rest v h
        rcases Option.or_eq_some_iff.mp h with h | ⟨-, h⟩
        · obtain ⟨r, hr, he⟩ := Option.map_eq_some_iff.mp h
          simp only [Prod.mk.injEq] at he
          rw [← he.2]
          exact anyString.shorter hr
        · exact scalar.shorter h }

end LineShell.Toml
