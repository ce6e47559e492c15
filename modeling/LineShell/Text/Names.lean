/-!
# Names in order

Sets of names as strictly increasing lists. Strings are compared by code
points, which is also the order of their UTF-8 bytes.
-/

set_option autoImplicit false

namespace LineShell.Names

def insert (name : String) : List String → List String
  | [] => [name]
  | x :: xs =>
    if name < x then name :: x :: xs
    else if name = x then x :: xs
    else x :: insert name xs

def ofList (names : List String) : List String := names.foldr insert []

theorem mem_insert {a name : String} {xs : List String} :
    a ∈ insert name xs ↔ a = name ∨ a ∈ xs := by
  induction xs with
  | nil => simp [insert]
  | cons x xs ih =>
    simp only [insert]
    split
    · simp
    · split
      · simp_all
      · simp only [List.mem_cons, ih]
        grind

theorem mem_ofList {a : String} {names : List String} : a ∈ ofList names ↔ a ∈ names := by
  induction names with
  | nil => simp [ofList]
  | cons x xs ih => simp only [ofList, List.foldr_cons, mem_insert] at ih ⊢; simp [ih]

theorem insert_sorted {name : String} {xs : List String} (h : xs.Pairwise (· < ·)) :
    (insert name xs).Pairwise (· < ·) := by
  induction xs with
  | nil => simp [insert]
  | cons x xs ih =>
    obtain ⟨hx, hxs⟩ := List.pairwise_cons.mp h
    simp only [insert]
    split
    · rename_i hlt
      refine List.pairwise_cons.mpr ⟨fun y hy => ?_, h⟩
      rcases List.mem_cons.mp hy with rfl | hy
      · exact hlt
      · exact String.lt_trans hlt (hx y hy)
    · rename_i hnlt
      split
      · exact h
      · rename_i hne
        refine List.pairwise_cons.mpr ⟨fun y hy => ?_, ih hxs⟩
        rcases mem_insert.mp hy with rfl | hy
        · exact Decidable.byContradiction fun hge =>
            hne (String.le_antisymm (String.not_lt.mp hge) (String.not_lt.mp hnlt))
        · exact hx y hy

theorem ofList_sorted (names : List String) : (ofList names).Pairwise (· < ·) := by
  induction names with
  | nil => simp [ofList]
  | cons x xs ih => exact insert_sorted ih

def shared : List Char → List Char → List Char
  | a :: as, b :: bs => if a = b then a :: shared as bs else []
  | _, _ => []

theorem shared_prefix_left (as bs : List Char) : shared as bs <+: as := by
  induction as generalizing bs with
  | nil => simp [shared]
  | cons a as ih =>
    cases bs with
    | nil => simp [shared]
    | cons b bs =>
      by_cases h : a = b
      · simp [shared, h, ih]
      · simp [shared, h]

def sharedByAll : List String → List Char
  | [] => []
  | [x] => x.toList
  | x :: y :: rest => shared x.toList (sharedByAll (y :: rest))

end LineShell.Names
