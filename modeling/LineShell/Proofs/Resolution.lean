import LineShell.Proofs.Creation
import LineShell.Redirect.Target

/-!
# Resolving a target

The tree only grows when a target is resolved. Resolving it again in a tree that
has grown since gives the same answer, up to the words of the system, and makes
nothing.
-/

set_option autoImplicit false

namespace LineShell

namespace Path

theorem startsAtRoot_append {a : String} (h : startsAtRoot a = true) (b : String) :
    startsAtRoot (a ++ b) = true := by
  simp only [startsAtRoot, decide_eq_true_eq, String.toList_append] at h ⊢
  rw [List.head?_append, h]
  rfl

theorem join_isAbsolute {base : Path} (h : base.isAbsolute = true) (target : String) :
    (base.join target).isAbsolute = true := by
  unfold join
  split
  · assumption
  · split
    · exact startsAtRoot_append h target
    · exact startsAtRoot_append (startsAtRoot_append h "/") target

theorem isAbsolute_parts {p : Path} (h : p.isAbsolute = true) :
    ∃ rest, p.parts = "" :: rest := by
  simp only [isAbsolute, startsAtRoot, decide_eq_true_eq] at h
  obtain ⟨cs, hcs⟩ := List.head?_eq_some_iff.mp h
  have hparts : p.parts = "" :: (cutAt '/' cs).map String.ofList := by
    rw [parts, hcs, cutAt, if_pos rfl]
    rfl
  exact ⟨(cutAt '/' cs).map String.ofList, hparts⟩

theorem ofParts_isAbsolute (rest : List String) : (ofParts ("" :: rest)).isAbsolute = true := by
  unfold ofParts
  split
  · rfl
  · cases rest with
    | nil => contradiction
    | cons part rest =>
      rw [isAbsolute, String.intercalate_cons_cons]
      exact startsAtRoot_append rfl _

theorem parent?_isAbsolute {p parent : Path} (h : p.isAbsolute = true)
    (hp : p.parent? = some parent) : parent.isAbsolute = true := by
  obtain ⟨rest, hparts⟩ := isAbsolute_parts h
  rw [parent?, hparts] at hp
  simp only [trimmed] at hp
  split at hp
  · simp at hp
  · cases hp
    exact ofParts_isAbsolute _

end Path

namespace FileTree.Anchored

variable {t : FileTree} {start : Location} {base : Path}

theorem join (h : t.Anchored start base) (target : String) :
    t.Anchored start (base.join target) := by
  rcases h with habs | hg
  · exact .inl (Path.join_isAbsolute habs target)
  · exact .inr hg

theorem parent {parent : Path} (h : t.Anchored start base) (hp : base.parent? = some parent) :
    t.Anchored start parent := by
  rcases h with habs | hg
  · exact .inl (Path.parent?_isAbsolute habs hp)
  · exact .inr hg

end FileTree.Anchored

namespace Redirect

/-- Errors of one kind that say the same. Only the words of the system, which
are not part of the message, may differ. -/
inductive Error.Alike : Error → Error → Prop
  | noSuchDirectory (path : Path) : Alike (.noSuchDirectory path) (.noSuchDirectory path)
  | createFailed (path : Path) (cause cause' : OsError) :
      Alike (.createFailed path cause) (.createFailed path cause')
  | missingTarget (operator : String) :
      Alike (.missingTarget operator) (.missingTarget operator)

theorem Error.Alike.message {e e' : Error} (h : Alike e e') : e'.message = e.message := by
  cases h <;> rfl

theorem Error.Alike.refl (e : Error) : Alike e e := by
  cases e with
  | noSuchDirectory path => exact .noSuchDirectory path
  | createFailed path cause => exact .createFailed path cause cause
  | missingTarget operator => exact .missingTarget operator

inductive SameResult : Except Error Target → Except Error Target → Prop
  | ok (target : Target) : SameResult (.ok target) (.ok target)
  | error {e e' : Error} (h : e.Alike e') : SameResult (.error e) (.error e')

section Resolve

variable {start : Location} {base : Path} {k : Kind} {word : String} {t u : FileTree}

def LacksParent (start : Location) (t : FileTree) (path : Path) : Prop :=
  (path.parent?.any fun parent => !t.isDirectory start parent) = true

theorem lacksParent_grown {path : Path} (h : t.Extends u) (ha : t.Anchored start path) :
    LacksParent start u path ↔ LacksParent start t path := by
  unfold LacksParent
  cases hp : path.parent? with
  | none => rfl
  | some parent =>
    simp only [Option.any_some]
    rw [FileTree.isDirectory_grown h (ha.parent hp)]

theorem resolveIn_state (start : Location) (base : Path) (k : Kind) (word : String)
    (t : FileTree) :
    (resolveIn start base k word t).state = t ∨
      k.mode = .truncate ∧
      t.create start (base.join word) = .ok (resolveIn start base k word t).state ∧
      ∃ target, (resolveIn start base k word t).result = .ok target := by
  unfold resolveIn
  by_cases hword : word = ""
  · rw [if_pos hword]
    exact .inl rfl
  rw [if_neg hword]
  dsimp only
  split
  · exact .inl rfl
  cases hmode : k.mode with
  | append => exact .inl rfl
  | truncate =>
    dsimp only
    split
    · rename_i made hmade
      exact .inr ⟨rfl, hmade, _, rfl⟩
    · exact .inl rfl
    · exact .inl rfl

theorem resolveIn_lacksParent (k : Kind) (hword : word ≠ "")
    (hlacks : LacksParent start t (base.join word)) :
    resolveIn start base k word t = ⟨.error (.noSuchDirectory (base.join word)), t, []⟩ := by
  unfold LacksParent at hlacks
  rw [resolveIn, if_neg hword]
  exact if_pos hlacks

theorem resolveIn_error {e : Error} (h : (resolveIn start base k word t).result = .error e) :
    (resolveIn start base k word t).state = t ∧ (resolveIn start base k word t).notices = [] := by
  revert h
  unfold resolveIn
  by_cases hword : word = ""
  · rw [if_pos hword]
    exact fun _ => ⟨rfl, rfl⟩
  rw [if_neg hword]
  dsimp only
  split
  · exact fun _ => ⟨rfl, rfl⟩
  cases k.mode with
  | append => exact fun _ => ⟨rfl, rfl⟩
  | truncate =>
    dsimp only
    split
    · intro h
      cases h
    · exact fun _ => ⟨rfl, rfl⟩
    · exact fun _ => ⟨rfl, rfl⟩

theorem resolveIn_extends (start : Location) (base : Path) (k : Kind) (word : String)
    (t : FileTree) : t.Extends (resolveIn start base k word t).state := by
  rcases resolveIn_state start base k word t with heq | ⟨_, hmade, _⟩
  · rw [heq]
    exact .refl t
  · exact FileTree.create_extends hmade

theorem resolveIn_again (ha : t.Anchored start base)
    (hx : (resolveIn start base k word t).state.Extends u) :
    SameResult (resolveIn start base k word t).result (resolveIn start base k word u).result ∧
      (resolveIn start base k word u).state = u := by
  have hgrow := (resolveIn_extends start base k word t).trans hx
  have hpath := ha.join word
  have hparent := lacksParent_grown hgrow hpath
  unfold LacksParent at hparent
  revert hx
  unfold resolveIn
  by_cases hword : word = ""
  · rw [if_pos hword, if_pos hword]
    intro _
    exact ⟨.error (.refl _), rfl⟩
  rw [if_neg hword, if_neg hword]
  dsimp only
  by_cases hlacks : ((base.join word).parent?.any fun parent => !t.isDirectory start parent) = true
  · rw [if_pos hlacks, if_pos (hparent.mpr hlacks)]
    intro _
    exact ⟨.error (.refl _), rfl⟩
  rw [if_neg hlacks, if_neg (mt hparent.mp hlacks)]
  cases hmode : k.mode with
  | append =>
    intro _
    exact ⟨.ok _, rfl⟩
  | truncate =>
    cases hmade : t.create start (base.join word) with
    | ok made =>
      intro hx
      have hthere := (FileTree.create_after_ok hmade hx hpath).1
      simp only [hthere, and_true]
      exact .ok _
    | error cause =>
      by_cases hcause : cause = .alreadyExists
      · subst hcause
        intro hx
        have hthere := FileTree.create_after_there hmade hx hpath
        simp only [hthere, and_true]
        exact .ok _
      · intro hx
        obtain ⟨cause', hne, herror⟩ :=
          FileTree.create_after_error hmade hcause hgrow hpath
        simp only [herror, and_true]
        exact .error (.createFailed _ _ _)

end Resolve

end Redirect

end LineShell
