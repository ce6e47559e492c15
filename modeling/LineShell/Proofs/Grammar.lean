import LineShell.Word
import Mathlib.Data.List.TakeWhile

/-!
# The grammar of lines

A line is a row of operators and words with gaps of blanks around them, and a
word is a row of segments. Each part says what it looks like and what may stand
after it. Together the rules leave one way at most to divide a line.
-/

set_option autoImplicit false

namespace LineShell.Grammar

/-- What stands between double quotes: characters and escaped characters. -/
inductive Piece where
  | bare (c : Char)
  | escape (c : Char)
  deriving DecidableEq, Repr

inductive Segment where
  | bare (c : Char)
  | escape (c : Char)
  | dangling
  | single (body : List Char) (closed : Bool)
  | double (body : List Piece) (closed : Bool)
  deriving DecidableEq, Repr

/-- A line from left to right, with the gap before each part. -/
inductive Division where
  | finish (gap : List Char)
  | operator (gap text : List Char) (rest : Division)
  | word (gap : List Char) (segments : List Segment) (rest : Division)
  deriving DecidableEq, Repr

def escapable : List Char := ['\\', '$', '"', '\n']

def closing (quote : Char) (closed : Bool) : List Char := if closed then [quote] else []

namespace Piece

def source : Piece → List Char
  | bare c => [c]
  | escape c => ['\\', c]

def char : Piece → Char
  | bare c => c
  | escape c => c

def Fits : Piece → List Char → Prop
  | bare c, after => c ≠ '"' ∧ (c = '\\' → ∀ e ∈ escapable, after.head? ≠ some e)
  | escape c, _ => c ∈ escapable

end Piece

/-- Each element of a row fits before the rest of the row and what follows. -/
def RowFits {α : Type} (source : α → List Char) (fits : α → List Char → Prop) :
    List α → List Char → Prop
  | [], _ => True
  | x :: xs, after => fits x (xs.flatMap source ++ after) ∧ RowFits source fits xs after

namespace Segment

def source : Segment → List Char
  | bare c => [c]
  | escape c => ['\\', c]
  | dangling => ['\\']
  | single body closed => '\x27' :: (body ++ closing '\x27' closed)
  | double body closed => '"' :: (body.flatMap Piece.source ++ closing '"' closed)

def text : Segment → List Char
  | bare c => [c]
  | escape c => [c]
  | dangling => []
  | single body _ => body
  | double body _ => body.map Piece.char

/-- The segment may stand before the given text. Only the end of the line can
end an open quote. -/
def Fits : Segment → List Char → Prop
  | bare c, _ => isBlank c = false ∧ c ≠ '\\' ∧ c ≠ '\x27' ∧ c ≠ '"'
  | escape _, _ => True
  | dangling, after => after = []
  | single body closed, after => '\x27' ∉ body ∧ (closed = false → after = [])
  | double body closed, after =>
    RowFits Piece.source Piece.Fits body (closing '"' closed ++ after) ∧
      (closed = false → after = [])

end Segment

def BeginsBlank (cs : List Char) : Prop := cs.head?.any isBlank = true

def AllBlank (cs : List Char) : Prop := ∀ c ∈ cs, isBlank c = true

def IsOperator (text : List Char) : Prop :=
  ∃ digit arrows, (digit = [] ∨ digit = ['0'] ∨ digit = ['1'] ∨ digit = ['2']) ∧
    (arrows = 1 ∨ arrows = 2) ∧ text = digit ++ List.replicate arrows '>'

def BeginsOperator (cs : List Char) : Prop :=
  ∃ text after, IsOperator text ∧ BeginsBlank after ∧ cs = text ++ after

namespace Division

def source : Division → List Char
  | finish gap => gap
  | operator gap text rest => gap ++ (text ++ rest.source)
  | word gap segments rest => gap ++ (segments.flatMap Segment.source ++ rest.source)

def words : Option String → Division → List Word
  | none, finish _ => []
  | some op, finish _ => [.redirect op (.ofOperator op) ""]
  | _, operator _ text rest => words (some (String.ofList text)) rest
  | none, word _ segments rest =>
    .arg (String.ofList (segments.flatMap Segment.text)) :: words none rest
  | some op, word _ segments rest =>
    .redirect op (.ofOperator op) (String.ofList (segments.flatMap Segment.text)) ::
      words none rest

/-- The rules, when an operator may be waiting. A word is as long as it can be,
and it is no operator unless it is a target. -/
inductive WellFormed : Bool → Division → Prop
  | finish {waiting : Bool} {gap : List Char} (hgap : AllBlank gap) :
    WellFormed waiting (finish gap)
  | operator {gap text : List Char} {rest : Division} (hgap : AllBlank gap)
    (htext : IsOperator text) (hblank : BeginsBlank rest.source)
    (hrest : WellFormed true rest) : WellFormed false (operator gap text rest)
  | word {waiting : Bool} {gap : List Char} {segments : List Segment} {rest : Division}
    (hgap : AllBlank gap) (hne : segments ≠ [])
    (hfits : RowFits Segment.source Segment.Fits segments rest.source)
    (hend : rest.source = [] ∨ BeginsBlank rest.source)
    (hplain : waiting = false →
      ¬ BeginsOperator (segments.flatMap Segment.source ++ rest.source))
    (hrest : WellFormed false rest) : WellFormed waiting (word gap segments rest)

def IsOf (d : Division) (line : String) : Prop := d.source = line.toList ∧ d.WellFormed false

end Division

/-! ## Uniqueness -/

section Row

variable {α : Type} {source : α → List Char} {fits : α → List Char → Prop}

/-- If one element is determined by the text from it on, and no element begins
like the text that stops the row, the whole row is determined. -/
theorem RowFits.unique (Stop : List Char → Prop) {xs ys : List α} {a b : List Char}
    (hxs : RowFits source fits xs a) (hys : RowFits source fits ys b) (ha : Stop a) (hb : Stop b)
    (h : xs.flatMap source ++ a = ys.flatMap source ++ b)
    (hone : ∀ {x y : α} {a b : List Char}, fits x a → fits y b →
      source x ++ a = source y ++ b → x = y ∧ a = b)
    (hstop : ∀ {x : α} {a : List Char}, fits x a → ¬ Stop (source x ++ a)) :
    xs = ys ∧ a = b := by
  induction xs generalizing ys with
  | nil =>
    cases ys with
    | nil => exact ⟨rfl, h⟩
    | cons y ys =>
      rw [List.flatMap_nil, List.nil_append, List.flatMap_cons, List.append_assoc] at h
      exact absurd (h ▸ ha) (hstop hys.1)
  | cons x xs ih =>
    rw [List.flatMap_cons, List.append_assoc] at h
    cases ys with
    | nil => exact absurd (h ▸ hb) (hstop hxs.1)
    | cons y ys =>
      rw [List.flatMap_cons, List.append_assoc] at h
      obtain ⟨rfl, hrest⟩ := hone hxs.1 hys.1 h
      obtain ⟨rfl, rfl⟩ := ih hxs.2 hys.2 hrest
      exact ⟨rfl, rfl⟩

theorem class_unique {p : Char → Prop} {xs ys a b : List Char} (hxs : ∀ c ∈ xs, p c)
    (hys : ∀ c ∈ ys, p c) (ha : ∀ c ∈ a.head?, ¬ p c) (hb : ∀ c ∈ b.head?, ¬ p c)
    (h : xs ++ a = ys ++ b) : xs = ys ∧ a = b := by
  have row : ∀ {cs : List Char} (after : List Char), (∀ c ∈ cs, p c) →
      RowFits (fun c => [c]) (fun c _ => p c) cs after := by
    intro cs after hcs
    induction cs with
    | nil => trivial
    | cons c cs ih => exact ⟨hcs c (by simp), ih fun d hd => hcs d (by simp [hd])⟩
  have hrows : xs.flatMap (fun c => [c]) ++ a = ys.flatMap (fun c => [c]) ++ b := by simpa using h
  apply RowFits.unique (fun cs => ∀ c ∈ cs.head?, ¬ p c) (row a hxs) (row b hys) ha hb hrows
  · intro x y a b _ _ hxy
    simpa using hxy
  · intro x a hx hstop
    exact hstop x (by simp) hx

end Row

theorem Piece.unique {x y : Piece} {a b : List Char} (hx : x.Fits a) (hy : y.Fits b)
    (h : x.source ++ a = y.source ++ b) : x = y ∧ a = b := by
  cases x with
  | bare c =>
    cases y with
    | bare d => simpa [source] using h
    | escape d =>
      -- the bare backslash would stand before a character that it escapes
      obtain ⟨rfl, rfl⟩ : c = '\\' ∧ a = d :: b := by simpa [source] using h
      exact absurd rfl (hx.2 rfl d hy)
  | escape c =>
    cases y with
    | bare d =>
      obtain ⟨rfl, rfl⟩ : '\\' = d ∧ c :: a = b := by simpa [source] using h
      exact absurd rfl (hy.2 rfl c hx)
    | escape d => simpa [source] using h

theorem closing_unique {quote : Char} {c d : Bool} {a b : List Char} (hc : c = false → a = [])
    (hd : d = false → b = []) (h : closing quote c ++ a = closing quote d ++ b) :
    c = d ∧ a = b := by
  cases c <;> cases d <;> simp_all [closing]

theorem closing_head {quote : Char} {closed : Bool} {after : List Char}
    (h : closed = false → after = []) : ∀ c ∈ (closing quote closed ++ after).head?, c = quote := by
  cases closed <;> simp_all [closing]

theorem body_unique {xs ys : List Piece} {a b : List Char}
    (hxs : RowFits Piece.source Piece.Fits xs a) (hys : RowFits Piece.source Piece.Fits ys b)
    (ha : ∀ c ∈ a.head?, c = '"') (hb : ∀ c ∈ b.head?, c = '"')
    (h : xs.flatMap Piece.source ++ a = ys.flatMap Piece.source ++ b) : xs = ys ∧ a = b := by
  apply RowFits.unique (fun cs => ∀ c ∈ cs.head?, c = '"') hxs hys ha hb h Piece.unique
  intro x a hx hstop
  cases x with
  | bare c => exact hx.1 (hstop c (by simp [Piece.source]))
  | escape c => exact absurd (hstop '\\' (by simp [Piece.source])) (by decide)

namespace Segment

theorem unique {x y : Segment} {a b : List Char} (hx : x.Fits a) (hy : y.Fits b)
    (h : x.source ++ a = y.source ++ b) : x = y ∧ a = b := by
  cases x <;> cases y
  case single.single xs c ys d =>
    simp only [source, List.cons_append, List.append_assoc, List.cons.injEq, true_and] at h
    obtain ⟨rfl, htail⟩ := class_unique (p := (· ≠ '\x27')) (fun c hc => ne_of_mem_of_not_mem hc hx.1)
      (fun c hc => ne_of_mem_of_not_mem hc hy.1) (by simpa using closing_head hx.2)
      (by simpa using closing_head hy.2) h
    obtain ⟨rfl, rfl⟩ := closing_unique hx.2 hy.2 htail
    exact ⟨rfl, rfl⟩
  case double.double xs c ys d =>
    simp only [source, List.cons_append, List.append_assoc, List.cons.injEq, true_and] at h
    obtain ⟨rfl, htail⟩ := body_unique hx.1 hy.1 (closing_head hx.2) (closing_head hy.2) h
    obtain ⟨rfl, rfl⟩ := closing_unique hx.2 hy.2 htail
    exact ⟨rfl, rfl⟩
  -- segments of two kinds differ in their first character, or in what follows a backslash
  all_goals
    simp only [source, Fits, List.cons_append, List.nil_append, List.cons.injEq] at *
    grind

theorem not_beginsBlank {x : Segment} {a : List Char} (hx : x.Fits a) :
    ¬ BeginsBlank (x.source ++ a) := by
  cases x with
  | bare c => simp [BeginsBlank, source, hx.1]
  | escape c => simp [BeginsBlank, source]; decide
  | dangling => simp [BeginsBlank, source]; decide
  | single body closed => simp [BeginsBlank, source]; decide
  | double body closed => simp [BeginsBlank, source]; decide

theorem source_ne_nil (x : Segment) : x.source ≠ [] := by
  cases x <;> simp [source]

end Segment

theorem word_unique {xs ys : List Segment} {a b : List Char}
    (hxs : RowFits Segment.source Segment.Fits xs a)
    (hys : RowFits Segment.source Segment.Fits ys b) (ha : a = [] ∨ BeginsBlank a)
    (hb : b = [] ∨ BeginsBlank b)
    (h : xs.flatMap Segment.source ++ a = ys.flatMap Segment.source ++ b) : xs = ys ∧ a = b := by
  apply RowFits.unique (fun cs => cs = [] ∨ BeginsBlank cs) hxs hys ha hb h Segment.unique
  rintro x a hx (hnil | hblank)
  · exact x.source_ne_nil (List.append_eq_nil_iff.mp hnil).1
  · exact Segment.not_beginsBlank hx hblank

/-! ## Operators -/

theorem BeginsBlank.cons {cs : List Char} (h : BeginsBlank cs) :
    ∃ c rest, isBlank c = true ∧ cs = c :: rest := by
  cases cs with
  | nil => simp [BeginsBlank] at h
  | cons c rest => exact ⟨c, rest, by simpa [BeginsBlank] using h, rfl⟩

theorem digit_cases (cs : List Char) :
    let digit := (cs.take 1).filter fun c => c = '0' || c = '1' || c = '2'
    (digit = [] ∨ digit = ['0'] ∨ digit = ['1'] ∨ digit = ['2']) ∧
      digit ++ cs.drop digit.length = cs := by
  cases cs with
  | nil => simp
  | cons c rest =>
    by_cases hc : c = '0' ∨ c = '1' ∨ c = '2'
    · rcases hc with rfl | rfl | rfl <;> simp
    · have hnone : [c].filter (fun c => c = '0' || c = '1' || c = '2') = [] := by
        simpa [not_or, and_assoc] using hc
      simp [hnone]

/-- The operator at the start of a text, as the rules describe it. -/
theorem operator?_eq_some_iff {cs text after : List Char} :
    Word.operator? cs = some (text, after) ↔
      IsOperator text ∧ BeginsBlank after ∧ cs = text ++ after := by
  constructor
  · intro h
    obtain ⟨hdigit, hcs⟩ := digit_cases cs
    simp only [Word.operator?] at h
    generalize (cs.take 1).filter (fun c => c = '0' || c = '1' || c = '2') = digit at *
    generalize cs.drop digit.length = rest at *
    have harrows : rest.takeWhile (· = '>') =
        List.replicate (rest.takeWhile (· = '>')).length '>' :=
      List.eq_replicate_iff.mpr ⟨rfl, fun c hc => by simpa using List.mem_takeWhile_imp hc⟩
    split at h
    · rename_i hc
      simp only [Bool.and_eq_true, Bool.or_eq_true, decide_eq_true_eq] at hc
      simp only [Option.some.injEq, Prod.mk.injEq] at h
      obtain ⟨rfl, rfl⟩ := h
      refine ⟨⟨digit, _, hdigit, hc.1, congrArg (digit ++ ·) harrows⟩, hc.2, ?_⟩
      rw [List.append_assoc, List.takeWhile_append_dropWhile, hcs]
    · simp at h
  · rintro ⟨⟨digit, arrows, hdigit, harrows, rfl⟩, hblank, rfl⟩
    obtain ⟨c, rest, hc, rfl⟩ := hblank.cons
    have hne : c ≠ '>' := by
      rintro rfl
      exact absurd hc (by decide)
    rcases hdigit with rfl | rfl | rfl | rfl <;> rcases harrows with rfl | rfl <;>
      simp [Word.operator?, hc, hne]

theorem operator?_eq_none_iff {cs : List Char} :
    Word.operator? cs = none ↔ ¬ BeginsOperator cs := by
  constructor
  · rintro h ⟨text, after, hop⟩
    exact absurd (operator?_eq_some_iff.mpr hop) (by simp [h])
  · intro h
    cases hcs : Word.operator? cs with
    | none => rfl
    | some found => exact absurd ⟨found.1, found.2, operator?_eq_some_iff.mp hcs⟩ h

theorem operator_unique {x y a b : List Char} (hx : IsOperator x) (hy : IsOperator y)
    (ha : BeginsBlank a) (hb : BeginsBlank b) (h : x ++ a = y ++ b) : x = y ∧ a = b := by
  have hxa := operator?_eq_some_iff.mpr ⟨hx, ha, rfl⟩
  have hyb := operator?_eq_some_iff.mpr ⟨hy, hb, h⟩
  simpa using hxa.symm.trans hyb

theorem IsOperator.not_beginsBlank {text : List Char} (h : IsOperator text) (after : List Char) :
    ¬ BeginsBlank (text ++ after) := by
  obtain ⟨digit, arrows, hdigit, harrows, rfl⟩ := h
  rcases hdigit with rfl | rfl | rfl | rfl <;> rcases harrows with rfl | rfl <;>
    (simp [BeginsBlank]; decide)

theorem IsOperator.ne_nil {text : List Char} (h : IsOperator text) : text ≠ [] := by
  obtain ⟨digit, arrows, -, rfl | rfl, rfl⟩ := h <;> simp

theorem word_ne_nil {segments : List Segment} (h : segments ≠ []) :
    segments.flatMap Segment.source ≠ [] := by
  cases segments with
  | nil => exact absurd rfl h
  | cons x xs =>
    rw [List.flatMap_cons]
    exact List.append_ne_nil_of_left_ne_nil x.source_ne_nil _

theorem word_not_beginsBlank {segments : List Segment} {after : List Char}
    (hne : segments ≠ []) (h : RowFits Segment.source Segment.Fits segments after) :
    ¬ BeginsBlank (segments.flatMap Segment.source ++ after) := by
  cases segments with
  | nil => exact absurd rfl hne
  | cons x xs =>
    rw [List.flatMap_cons, List.append_assoc]
    exact Segment.not_beginsBlank h.1

theorem gap_unique {x y a b : List Char} (hx : AllBlank x) (hy : AllBlank y)
    (ha : ¬ BeginsBlank a) (hb : ¬ BeginsBlank b) (h : x ++ a = y ++ b) : x = y ∧ a = b := by
  have starts : ∀ {cs : List Char}, ¬ BeginsBlank cs → ∀ c ∈ cs.head?, ¬ isBlank c = true := by
    intro cs hcs c hc hblank
    exact hcs (by simp [BeginsBlank, Option.mem_def.mp hc, hblank])
  exact class_unique hx hy (starts ha) (starts hb) h

namespace Division

def gap : Division → List Char
  | finish gap => gap
  | operator gap _ _ => gap
  | word gap _ _ => gap

def body : Division → List Char
  | finish _ => []
  | operator _ text rest => text ++ rest.source
  | word _ segments rest => segments.flatMap Segment.source ++ rest.source

theorem gap_append_body (d : Division) : d.gap ++ d.body = d.source := by
  cases d <;> simp [gap, body, source]

theorem WellFormed.allBlank_gap {waiting : Bool} {d : Division} (h : d.WellFormed waiting) :
    AllBlank d.gap := by
  cases h <;> assumption

theorem WellFormed.body_not_beginsBlank {waiting : Bool} {d : Division}
    (h : d.WellFormed waiting) : ¬ BeginsBlank d.body := by
  cases h with
  | finish => simp [body, BeginsBlank]
  | operator _ htext _ _ => exact htext.not_beginsBlank _
  | word _ hne hfits _ _ _ => exact word_not_beginsBlank hne hfits

theorem WellFormed.gap_body_unique {waiting : Bool} {d e : Division} (hd : d.WellFormed waiting)
    (he : e.WellFormed waiting) (h : d.source = e.source) : d.gap = e.gap ∧ d.body = e.body :=
  gap_unique hd.allBlank_gap he.allBlank_gap hd.body_not_beginsBlank he.body_not_beginsBlank
    (by rw [gap_append_body, gap_append_body, h])

theorem WellFormed.unique {waiting : Bool} {d e : Division} (hd : d.WellFormed waiting)
    (he : e.WellFormed waiting) (h : d.source = e.source) : d = e := by
  induction hd generalizing e with
  | finish hgap =>
    obtain ⟨rfl, hb⟩ := (WellFormed.finish hgap).gap_body_unique he h
    cases he with
    | finish => rfl
    | operator _ htext _ _ =>
      exact absurd (List.append_eq_nil_iff.mp hb.symm).1 htext.ne_nil
    | word _ hne _ _ _ _ =>
      exact absurd (List.append_eq_nil_iff.mp hb.symm).1 (word_ne_nil hne)
  | @operator gap text rest hgap htext hblank hrest ih =>
    obtain ⟨rfl, hb⟩ := (WellFormed.operator hgap htext hblank hrest).gap_body_unique he h
    cases he with
    | finish => exact absurd (List.append_eq_nil_iff.mp hb).1 htext.ne_nil
    | operator _ htext' hblank' hrest' =>
      obtain ⟨rfl, hsource⟩ := operator_unique htext htext' hblank hblank' hb
      rw [ih hrest' hsource]
      rfl
    | word _ _ _ _ hplain _ => exact absurd ⟨text, rest.source, htext, hblank, hb.symm⟩ (hplain rfl)
  | word hgap hne hfits hend hplain hrest ih =>
    obtain ⟨rfl, hb⟩ := (WellFormed.word hgap hne hfits hend hplain hrest).gap_body_unique he h
    cases he with
    | finish => exact absurd (List.append_eq_nil_iff.mp hb).1 (word_ne_nil hne)
    | @operator _ text after _ htext hblank _ =>
      exact absurd ⟨text, after.source, htext, hblank, hb⟩ (hplain rfl)
    | word _ _ hfits' hend' _ hrest' =>
      obtain ⟨rfl, hsource⟩ := word_unique hfits hfits' hend hend' hb
      rw [ih hrest' hsource]
      rfl

end Division

end LineShell.Grammar
