import LineShell.Proofs.Grammar
import Mathlib.Logic.ExistsUnique

/-!
# Splitting a line

Word by word, splitting a line follows the rules of the grammar. So every line
has a division, and its words are those of the one division it has.
-/

set_option autoImplicit false

namespace LineShell.Grammar

/-- The text up to what is after it consists of segments that stand for a word. -/
def Spells (cs word after : List Char) : Prop :=
  ∃ segments, RowFits Segment.source Segment.Fits segments after ∧
    segments.flatMap Segment.source ++ after = cs ∧ segments.flatMap Segment.text = word

def SpellsFrom : Word.Quoting → List Char → List Char → List Char → Prop
  | .plain, cs, word, after => Spells cs word after
  | .escaped, cs, word, after =>
    (cs = [] ∧ word = [] ∧ after = []) ∨
      ∃ c more part, cs = c :: more ∧ word = c :: part ∧ Spells more part after
  | .single, cs, word, after =>
    ∃ body closed more part, '\x27' ∉ body ∧ (closed = false → more = []) ∧
      cs = body ++ (closing '\x27' closed ++ more) ∧ word = body ++ part ∧ Spells more part after
  | .double, cs, word, after =>
    ∃ body closed more part, RowFits Piece.source Piece.Fits body (closing '"' closed ++ more) ∧
      (closed = false → more = []) ∧
      cs = body.flatMap Piece.source ++ (closing '"' closed ++ more) ∧
      word = body.map Piece.char ++ part ∧ Spells more part after

theorem Spells.nil {after : List Char} : Spells after [] after :=
  ⟨[], trivial, rfl, rfl⟩

theorem Spells.cons {x : Segment} {more part after : List Char} (hx : x.Fits more)
    (h : Spells more part after) : Spells (x.source ++ more) (x.text ++ part) after := by
  obtain ⟨segments, hfits, rfl, rfl⟩ := h
  exact ⟨x :: segments, ⟨hx, hfits⟩, by simp, by simp⟩

theorem mem_escapable {c : Char} : c ∈ escapable ↔ Word.escapable c = true := by
  simp [escapable, Word.escapable, or_assoc]

theorem SpellsFrom.piece {x : Piece} {cs word after : List Char} (hx : x.Fits cs)
    (h : SpellsFrom .double cs word after) :
    SpellsFrom .double (x.source ++ cs) (x.char :: word) after := by
  obtain ⟨body, closed, more, part, hbody, hmore, rfl, rfl, hpart⟩ := h
  exact ⟨x :: body, closed, more, part, ⟨hx, hbody⟩, hmore, by simp, by simp, hpart⟩

theorem SpellsFrom.nil (q : Word.Quoting) : SpellsFrom q [] [] [] := by
  cases q with
  | plain => exact Spells.nil
  | escaped => exact .inl ⟨rfl, rfl, rfl⟩
  | single => exact ⟨[], false, [], [], by simp, fun _ => rfl, rfl, rfl, Spells.nil⟩
  | double => exact ⟨[], false, [], [], trivial, fun _ => rfl, rfl, rfl, Spells.nil⟩

/-- Taking a word spells it, from any point inside it. -/
theorem take_spells (q : Word.Quoting) (cs : List Char) :
    SpellsFrom q cs (Word.take q cs).1 (Word.take q cs).2 := by
  fun_induction Word.take q cs with
  | case1 q => exact SpellsFrom.nil q
  | case2 c rest text after hrest ih =>
    rw [hrest] at ih
    exact .inr ⟨c, rest, text, rfl, rfl, ih⟩
  | case3 rest ih => exact ⟨[], true, rest, _, by simp, by simp, rfl, rfl, ih⟩
  | case4 c rest hc text after hrest ih =>
    rw [hrest] at ih
    obtain ⟨body, closed, more, part, hbody, hmore, rfl, rfl, hpart⟩ := ih
    exact ⟨c :: body, closed, more, part, by simp [hbody, Ne.symm hc], hmore, by simp, by simp, hpart⟩
  | case5 c rest hc text after hrest ih =>
    rw [hrest] at ih
    exact SpellsFrom.piece (x := .escape c) (mem_escapable.mpr hc) ih
  | case6 c rest hc text after hrest ih =>
    rw [hrest] at ih
    refine SpellsFrom.piece (x := .bare '\\') ⟨by decide, fun _ e he hhead => ?_⟩ ih
    obtain rfl : c = e := by simpa using hhead
    exact hc (mem_escapable.mp he)
  | case7 rest _ ih => exact ⟨[], true, rest, _, trivial, by simp, rfl, rfl, ih⟩
  | case8 c rest hpair hc text after hrest ih =>
    rw [hrest] at ih
    refine SpellsFrom.piece (x := .bare c) ⟨hc, fun hslash e _ hhead => ?_⟩ ih
    -- a backslash before another character is the case above
    obtain ⟨tail, rfl⟩ := List.head?_eq_some_iff.mp hhead
    exact hpair e tail hslash rfl
  | case9 rest ih =>
    rcases ih with ⟨rfl, hword, hafter⟩ | ⟨c, more, part, rfl, hword, hpart⟩
    · rw [hword, hafter]
      exact Spells.cons (x := .dangling) rfl Spells.nil
    · rw [hword]
      exact Spells.cons (x := .escape c) trivial hpart
  | case10 rest _ ih =>
    obtain ⟨body, closed, more, part, hbody, hmore, rfl, hword, hpart⟩ := ih
    rw [hword]
    simpa [SpellsFrom, Segment.source, Segment.text] using
      Spells.cons (x := .single body closed) ⟨hbody, hmore⟩ hpart
  | case11 rest _ _ ih =>
    obtain ⟨body, closed, more, part, hbody, hmore, rfl, hword, hpart⟩ := ih
    rw [hword]
    simpa [SpellsFrom, Segment.source, Segment.text] using
      Spells.cons (x := .double body closed) ⟨hbody, hmore⟩ hpart
  | case12 => exact Spells.nil
  | case13 c rest hslash hsingle hdouble hblank text after hrest ih =>
    rw [hrest] at ih
    exact Spells.cons (x := .bare c) ⟨by simpa using hblank, hslash, hsingle, hdouble⟩ ih

theorem take_stops (q : Word.Quoting) (cs : List Char) :
    (Word.take q cs).2 = [] ∨ BeginsBlank (Word.take q cs).2 := by
  fun_induction Word.take q cs <;> simp_all [BeginsBlank]

theorem word_exists {c : Char} (rest : List Char) (hc : isBlank c = false) :
    ∃ segments, segments ≠ [] ∧
      RowFits Segment.source Segment.Fits segments (Word.take .plain (c :: rest)).2 ∧
      segments.flatMap Segment.source ++ (Word.take .plain (c :: rest)).2 = c :: rest ∧
      segments.flatMap Segment.text = (Word.take .plain (c :: rest)).1 := by
  obtain ⟨segments, hfits, hsource, htext⟩ := take_spells .plain (c :: rest)
  have hne : segments ≠ [] := by
    rintro rfl
    have hafter : (Word.take .plain (c :: rest)).2 = c :: rest := hsource
    have hstops := take_stops .plain (c :: rest)
    simp [hafter, BeginsBlank, hc] at hstops
  exact ⟨segments, hne, hfits, hsource, htext⟩

theorem takeWhile_allBlank (cs : List Char) : AllBlank (cs.takeWhile isBlank) :=
  fun _ hc => List.mem_takeWhile_imp hc

theorem read_division (waiting : Option String) (cs : List Char) :
    ∃ d : Division, d.source = cs ∧ d.WellFormed waiting.isSome ∧
      d.words waiting = Word.read waiting cs := by
  fun_induction Word.read waiting cs with
  | case1 waiting cs hcs =>
    refine ⟨.finish cs, rfl, .finish (List.dropWhile_eq_nil_iff.mp hcs), ?_⟩
    cases waiting <;> rfl
  | case2 waiting cs c rest hcs op after ho ih =>
    obtain ⟨d, hsource, hd, hwords⟩ := ih
    cases waiting with
    | some _ => simp at ho
    | none =>
      obtain ⟨hop, hblank, htext⟩ := operator?_eq_some_iff.mp (by simpa using ho)
      refine ⟨.operator (cs.takeWhile isBlank) op d, ?_, ?_, hwords⟩
      · rw [Division.source, hsource, ← htext, ← hcs, List.takeWhile_append_dropWhile]
      · exact .operator (takeWhile_allBlank cs) hop (hsource ▸ hblank) hd
  | case3 waiting cs c rest hcs ho word ih =>
    obtain ⟨d, hsource, hd, hwords⟩ := ih
    obtain ⟨segments, hne, hfits, hword, htext⟩ :=
      word_exists rest (Word.dropWhile_eq_cons hcs).1
    refine ⟨.word (cs.takeWhile isBlank) segments d, ?_, ?_, ?_⟩
    · rw [Division.source, hsource, hword, ← hcs, List.takeWhile_append_dropWhile]
    · refine .word (takeWhile_allBlank cs) hne (hsource ▸ hfits) ?_ ?_ hd
      · rw [hsource]
        exact take_stops .plain (c :: rest)
      · intro hnone
        rw [hsource, hword]
        exact operator?_eq_none_iff.mp (by simpa [Option.isSome_eq_false_iff.mp hnone] using ho)
    · cases waiting <;> simp [Division.words, Word.ofText, htext, hwords, word]

/-- A line has one division, and its words are those of the line. -/
theorem splitWords_division (line : String) :
    (∃! d : Division, d.IsOf line) ∧ ∃ d : Division, d.IsOf line ∧ splitWords line = d.words none := by
  obtain ⟨d, hsource, hd, hwords⟩ := read_division none line.toList
  have hof : d.IsOf line := ⟨hsource, hd⟩
  constructor
  · apply ExistsUnique.intro d hof
    intro e he
    exact he.2.unique hd (he.1.trans hsource.symm)
  · exact ⟨d, hof, hwords.symm⟩

end LineShell.Grammar
