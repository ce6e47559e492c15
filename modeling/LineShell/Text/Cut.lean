/-!
# Cutting at a character

The parts of a text between the occurrences of a character. There is one more
part than there are occurrences.
-/

set_option autoImplicit false

namespace LineShell

def cutAt (sep : Char) : List Char → List (List Char)
  | [] => [[]]
  | c :: rest =>
    if c = sep then [] :: cutAt sep rest
    else match cutAt sep rest with
      | [] => [[c]]
      | part :: parts => (c :: part) :: parts

theorem cutAt_ne_nil (sep : Char) (cs : List Char) : cutAt sep cs ≠ [] := by
  cases cs with
  | nil => simp [cutAt]
  | cons c rest =>
    simp only [cutAt]
    split
    · simp
    · split <;> simp

theorem cutAt_append (sep : Char) (a b : List Char) :
    cutAt sep (a ++ sep :: b) = cutAt sep a ++ cutAt sep b := by
  induction a with
  | nil => simp [cutAt]
  | cons c rest ih =>
    simp only [List.cons_append, cutAt, ih]
    split
    · rfl
    · cases h : cutAt sep rest with
      | nil => exact absurd h (cutAt_ne_nil sep rest)
      | cons part parts => rfl

theorem cutAt_of_notMem {sep : Char} {cs : List Char} (h : sep ∉ cs) : cutAt sep cs = [cs] := by
  induction cs with
  | nil => rfl
  | cons c rest ih =>
    simp only [List.mem_cons, not_or] at h
    simp [cutAt, ih h.2, Ne.symm h.1]

theorem intercalate_cutAt (sep : Char) (cs : List Char) :
    [sep].intercalate (cutAt sep cs) = cs := by
  induction cs with
  | nil => rfl
  | cons c rest ih =>
    by_cases hc : c = sep
    · subst hc
      obtain ⟨part, parts, hparts⟩ := List.exists_cons_of_ne_nil (cutAt_ne_nil c rest)
      rw [cutAt, if_pos rfl]
      rw [hparts] at ih ⊢
      rw [List.intercalate_cons_cons, ih]
      rfl
    · rw [cutAt, if_neg hc]
      obtain ⟨part, parts, hparts⟩ := List.exists_cons_of_ne_nil (cutAt_ne_nil sep rest)
      rw [hparts] at ih ⊢
      cases parts with
      | nil => simpa using ih
      | cons other parts =>
        dsimp only
        rw [List.intercalate_cons_cons] at ih ⊢
        rw [← ih]
        rfl

theorem cutAt_intercalate {sep : Char} {parts : List (List Char)} (hne : parts ≠ [])
    (h : ∀ part ∈ parts, sep ∉ part) : cutAt sep ([sep].intercalate parts) = parts := by
  induction parts with
  | nil => exact absurd rfl hne
  | cons part parts ih =>
    have hpart := cutAt_of_notMem (h part (by simp))
    cases parts with
    | nil => simpa using hpart
    | cons other parts =>
      rw [List.intercalate_cons_cons, List.append_assoc, List.singleton_append, cutAt_append, hpart,
        ih (by simp) fun p hp => h p (by simp [hp])]
      rfl

theorem notMem_cutAt (sep : Char) (cs : List Char) : ∀ part ∈ cutAt sep cs, sep ∉ part := by
  induction cs with
  | nil => simp [cutAt]
  | cons c rest ih =>
    by_cases hc : c = sep
    · simpa [cutAt, hc] using ih
    · rw [cutAt, if_neg hc]
      obtain ⟨part, parts, hparts⟩ := List.exists_cons_of_ne_nil (cutAt_ne_nil sep rest)
      rw [hparts] at ih ⊢
      rw [List.forall_mem_cons] at ih ⊢
      refine ⟨?_, ih.2⟩
      rw [List.mem_cons, not_or]
      exact ⟨Ne.symm hc, ih.1⟩

end LineShell
