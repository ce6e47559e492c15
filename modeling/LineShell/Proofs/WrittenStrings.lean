import LineShell.Toml.Strings
import LineShell.Toml.Writer
import Mathlib.Data.List.TakeWhile

/-!
# Strings read back

Whatever style a string is written in, it is read back as it was, and reading
stops where writing did. The quotes are what makes this delicate: some of them
may belong to the string although closing ones look the same.
-/

set_option autoImplicit false

namespace LineShell.Toml

/-- What follows a string does not go on with its closing quotes. -/
def Stops (q : Char) (rest : List Char) : Prop := ∀ c ∈ rest.head?, c ≠ q

def Style.closing (style : Style) : List Char :=
  if style.lines then threeOf style.quote else [style.quote]

/-! ## Quotes -/

section Quotes

variable {q : Char} {escapes : Bool} {rest : List Char}

theorem Stops.takeWhile (h : Stops q rest) : rest.takeWhile (· = q) = [] := by
  cases rest with
  | nil => rfl
  | cons c rest =>
    have hc : c ≠ q := h c rfl
    exact List.takeWhile_cons_of_neg (by simpa using hc)

theorem Stops.take (h : Stops q rest) (n : Nat) : Stops q (rest.take n) := by
  intro c hc
  rw [List.head?_take] at hc
  split at hc
  · cases hc
  · exact h c hc

theorem quotes_replicate {n : Nat} (hn : n ≤ 5) (hrest : Stops q rest) :
    quotes q (List.replicate n q ++ rest) = n := by
  have hall : ∀ c ∈ List.replicate n q, decide (c = q) = true := by
    intro c hc
    simpa using List.eq_of_mem_replicate hc
  rw [quotes, List.take_append, List.take_of_length_le (by simpa using hn), List.length_replicate,
    List.takeWhile_append_of_pos hall, (hrest.take _).takeWhile, List.append_nil,
    List.length_replicate]

theorem quotes_lt_three {cs : List Char} (h : ¬ threeOf q <+: cs) : quotes q cs < 3 := by
  match cs with
  | [] | [_] | [_, _] =>
    refine Nat.lt_of_le_of_lt (List.takeWhile_prefix _).length_le ?_
    simp
  | a :: b :: c :: cs =>
    simp only [threeOf, List.cons_prefix_cons, List.nil_prefix, and_true, not_and] at h
    by_cases ha : a = q
    · by_cases hb : b = q
      · have hc : c ≠ q := fun hc => h ha.symm hb.symm hc.symm
        simp [quotes, ha, hb, hc]
      · simp [quotes, ha, hb]
    · simp [quotes, ha]

variable (escapes) in
theorem stringBody?_close {n : Nat} (hn : n ≤ 2) (hrest : Stops q rest) :
    stringBody? ⟨q, escapes, true⟩ (List.replicate n q ++ (threeOf q ++ rest)) =
      some (List.replicate n q, rest) := by
  have hjoined : List.replicate n q ++ (threeOf q ++ rest) = List.replicate (n + 3) q ++ rest := by
    rw [← List.append_assoc, show threeOf q = List.replicate 3 q from rfl,
      List.replicate_append_replicate]
  have hquotes : quotes q (List.replicate (n + 3) q ++ rest) = n + 3 :=
    quotes_replicate (by omega) hrest
  have hdrop : (List.replicate (n + 3) q ++ rest).drop (n + 3) = rest :=
    List.drop_left' List.length_replicate
  rw [hjoined]
  rw [List.replicate_succ, List.cons_append] at hquotes hdrop ⊢
  rw [stringBody?, if_pos rfl, if_neg (by simp), hquotes, if_neg (by omega), hdrop]
  rfl

theorem stringBody?_quote {text : List Char} (htext : ¬ threeOf q <+: q :: text)
    (hrest : Stops q rest) :
    stringBody? ⟨q, escapes, true⟩ (q :: (text ++ (threeOf q ++ rest))) =
      andThen q (stringBody? ⟨q, escapes, true⟩ (text ++ (threeOf q ++ rest))) := by
  have hfew (h : ¬ threeOf q <+: q :: (text ++ (threeOf q ++ rest))) :
      stringBody? ⟨q, escapes, true⟩ (q :: (text ++ (threeOf q ++ rest))) =
        andThen q (stringBody? ⟨q, escapes, true⟩ (text ++ (threeOf q ++ rest))) := by
    rw [stringBody?]
    simp [quotes_lt_three h]
  cases text with
  | nil =>
    have hnone := stringBody?_close escapes (n := 0) (by omega) hrest
    have hone := stringBody?_close escapes (n := 1) (by omega) hrest
    exact hone.trans (congrArg (andThen q) hnone).symm
  | cons d text =>
    cases text with
    | nil =>
      by_cases hd : d = q
      · subst hd
        have hone := stringBody?_close escapes (n := 1) (by omega) hrest
        have htwo := stringBody?_close escapes (n := 2) (by omega) hrest
        exact htwo.trans (congrArg (andThen d) hone).symm
      · refine hfew fun h => hd ?_
        simp only [threeOf, List.cons_append, List.cons_prefix_cons] at h
        exact h.2.1.symm
    | cons e text =>
      refine hfew fun h => htext ?_
      simpa [threeOf] using h

end Quotes

/-! ## Characters -/

section Characters

variable {style : Style} {c : Char} {rest : List Char}

structure Verbatim (style : Style) (c : Char) : Prop where
  notQuote : c ≠ style.quote
  notEscape : style.escapes = true → c ≠ '\\'
  legible : isPlain c = true ∨ c = '\n' ∧ style.lines = true

theorem stringBody?_verbatim (h : Verbatim style c) :
    stringBody? style (c :: rest) = andThen c (stringBody? style rest) := by
  have hescape : ¬ (decide (c = '\\') && style.escapes) = true := by
    simp only [Bool.and_eq_true, decide_eq_true_eq, not_and]
    exact fun hc hescapes => h.notEscape hescapes hc
  rw [stringBody?, if_neg h.notQuote, if_neg hescape]
  rcases h.legible with hplain | ⟨rfl, hlines⟩
  · rw [if_pos hplain]
  · rw [if_neg (by decide), hlines]
    rfl

end Characters

/-! ## Escapes -/

theorem hexChar?_append {digits rest : List Char} {c : Char}
    (h : hexChar? digits.length digits = some (c, [])) :
    hexChar? digits.length (digits ++ rest) = some (c, rest) := by
  unfold hexChar? at h ⊢
  rw [List.take_length] at h
  rw [List.take_left, List.drop_left]
  split at h
  · cases h
  · dsimp only at h ⊢
    split at h
    · rename_i hvalid
      rw [if_pos hvalid, (Prod.mk.inj (Option.some.inj h)).1]
    · cases h

def hexDigits (c : Char) : List Char :=
  ['0', '0'] ++ (if c.toNat < 0x10 then ['0'] else []) ++ hexUpper c.toNat

theorem hexDigits_ascii : ∀ n < 0x80, needsEscape (Char.ofNat n) = true →
    (hexDigits (Char.ofNat n)).length = 4 ∧
      hexChar? 4 (hexDigits (Char.ofNat n)) = some (Char.ofNat n, []) := by
  decide +kernel

theorem needsEscape_ascii {c : Char} (h : needsEscape c = true) : c.toNat < 0x80 := by
  simp only [needsEscape, isPlain, Bool.and_eq_true, Bool.not_eq_true', Bool.or_eq_false_iff,
    Bool.and_eq_false_iff, decide_eq_false_iff_not] at h
  omega

theorem hexChar?_hexDigits {c : Char} (h : needsEscape c = true) (rest : List Char) :
    hexChar? 4 (hexDigits c ++ rest) = some (c, rest) := by
  have hall := hexDigits_ascii c.toNat (needsEscape_ascii h)
  rw [Char.ofNat_toNat] at hall
  obtain ⟨hlength, hchar⟩ := hall h
  rw [← hlength] at hchar ⊢
  exact hexChar?_append hchar

theorem escapeOf?_eq_some {lines : Bool} {c : Char} {e : List Char}
    (h : escapeOf? lines c = some e) :
    ∃ tail, e = '\\' :: tail ∧ ∀ rest, escape? (tail ++ rest) = some (c, rest) ∧
      lineBreak? (skipGaps (tail ++ rest)) = none := by
  unfold escapeOf? at h
  split at h
  · subst c
    cases h
    exact ⟨['b'], rfl, fun rest => ⟨rfl, rfl⟩⟩
  split at h
  · subst c
    cases h
    exact ⟨['t'], rfl, fun rest => ⟨rfl, rfl⟩⟩
  split at h
  · subst c
    split at h
    · cases h
    · cases h
      exact ⟨['n'], rfl, fun rest => ⟨rfl, rfl⟩⟩
  split at h
  · subst c
    cases h
    exact ⟨['f'], rfl, fun rest => ⟨rfl, rfl⟩⟩
  split at h
  · subst c
    cases h
    exact ⟨['r'], rfl, fun rest => ⟨rfl, rfl⟩⟩
  split at h
  · subst c
    cases h
    exact ⟨['\\'], rfl, fun rest => ⟨rfl, rfl⟩⟩
  split at h
  · rename_i hneeds
    cases h
    exact ⟨'u' :: hexDigits c, rfl, fun rest => ⟨hexChar?_hexDigits hneeds rest, rfl⟩⟩
  · cases h

theorem legible_of_needsEscape {c : Char} (h : ¬ needsEscape c = true) :
    isPlain c = true ∨ c = '\n' := by
  simp only [needsEscape, Bool.and_eq_true, Bool.not_eq_true', decide_eq_true_eq, not_and] at h
  by_cases hplain : isPlain c = true
  · exact .inl hplain
  · exact .inr (by simpa using h (by simpa using hplain))

theorem escapeOf?_eq_none {lines : Bool} {c : Char} (hquote : c ≠ '"')
    (h : escapeOf? lines c = none) : Verbatim ⟨'"', true, lines⟩ c := by
  unfold escapeOf? at h
  split at h; · cases h
  split at h; · cases h
  split at h
  · subst c
    split at h
    · rename_i hlines
      exact ⟨hquote, fun _ => by decide, .inr ⟨rfl, hlines⟩⟩
    · cases h
  split at h; · cases h
  split at h; · cases h
  split at h; · cases h
  split at h
  · cases h
  · rename_i hnewline _ _ hbackslash hneeds
    refine ⟨hquote, fun _ => hbackslash, .inl ?_⟩
    exact (legible_of_needsEscape hneeds).resolve_right hnewline

theorem stringBody?_escape {quote : Char} {lines : Bool} (hquote : '\\' ≠ quote) {c : Char}
    {tail rest : List Char} (hescape : escape? tail = some (c, rest))
    (hbreak : lineBreak? (skipGaps tail) = none) :
    stringBody? ⟨quote, true, lines⟩ ('\\' :: tail) =
      andThen c (stringBody? ⟨quote, true, lines⟩ rest) := by
  rw [stringBody?, if_neg hquote, if_pos (by simp)]
  split
  · rename_i after hafter
    split at hafter
    · rw [hbreak] at hafter
      cases hafter
    · cases hafter
  · split
    · rename_i hread
      rw [hescape] at hread
      cases hread
      rfl
    · rename_i hread
      rw [hescape] at hread
      cases hread

/-! ## Bodies -/

theorem escaped_cons (lines : Bool) (run : Nat) (c : Char) (cs : List Char) :
    (c = '"' ∧ lines = true ∧ run < 2 ∧
      escaped lines run (c :: cs) = '"' :: escaped lines (run + 1) cs) ∨
    (∃ tail, escaped lines run (c :: cs) = '\\' :: (tail ++ escaped lines 0 cs) ∧
      ∀ rest, escape? (tail ++ rest) = some (c, rest) ∧
        lineBreak? (skipGaps (tail ++ rest)) = none) ∨
    (Verbatim ⟨'"', true, lines⟩ c ∧ escaped lines run (c :: cs) = c :: escaped lines 0 cs) := by
  rw [escaped]
  split
  · subst c
    by_cases hrun : run < if lines then 2 else 0
    · rw [if_pos hrun]
      cases lines with
      | true => exact .inl ⟨rfl, rfl, hrun, rfl⟩
      | false => exact absurd hrun (Nat.not_lt_zero run)
    · rw [if_neg hrun]
      exact .inr (.inl ⟨['"'], rfl, fun rest => ⟨rfl, rfl⟩⟩)
  · rename_i hquote
    cases hescape : escapeOf? lines c with
    | some e =>
      obtain ⟨tail, rfl, hread⟩ := escapeOf?_eq_some hescape
      exact .inr (.inl ⟨tail, rfl, hread⟩)
    | none => exact .inr (.inr ⟨escapeOf?_eq_none hquote hescape, rfl⟩)

theorem escaped_quotes {lines : Bool} {n run : Nat} {cs : List Char} (hrun : run ≤ 2)
    (h : List.replicate n '"' <+: escaped lines run cs) : run + n ≤ 2 := by
  induction n generalizing run cs with
  | zero => exact hrun
  | succ n ih =>
    cases cs with
    | nil => simp [escaped, List.replicate_succ] at h
    | cons c cs =>
      rw [List.replicate_succ] at h
      obtain ⟨-, -, hfew, hwritten⟩ | ⟨tail, hwritten, -⟩ | ⟨hverbatim, hwritten⟩ :=
        escaped_cons lines run c cs <;> rw [hwritten, List.cons_prefix_cons] at h
      · have hlater := ih hfew h.2
        omega
      · exact absurd h.1 (by decide)
      · exact absurd h.1.symm hverbatim.notQuote

theorem stringBody?_escaped (lines : Bool) {run : Nat} (hrun : run ≤ 2) (cs : List Char)
    {rest : List Char} (hrest : Stops '"' rest) :
    stringBody? ⟨'"', true, lines⟩
        (escaped lines run cs ++ (Style.closing ⟨'"', true, lines⟩ ++ rest)) = some (cs, rest) := by
  induction cs generalizing run with
  | nil =>
    cases lines with
    | true => exact stringBody?_close true (n := 0) (by omega) hrest
    | false =>
      show stringBody? _ ('"' :: rest) = _
      rw [stringBody?, if_pos rfl]
      rfl
  | cons c cs ih =>
    obtain ⟨rfl, rfl, hfew, hwritten⟩ | ⟨tail, hwritten, hread⟩ | ⟨hverbatim, hwritten⟩ :=
      escaped_cons lines run c cs <;> rw [hwritten, List.cons_append]
    · have hthree : ¬ threeOf '"' <+: '"' :: escaped true (run + 1) cs := by
        intro h
        have htwo := escaped_quotes (n := 2) hfew (List.cons_prefix_cons.mp h).2
        omega
      refine (stringBody?_quote hthree hrest).trans ?_
      exact congrArg (andThen '"') (ih hfew)
    · obtain ⟨hescape, hbreak⟩ := hread
        (escaped lines 0 cs ++ (Style.closing ⟨'"', true, lines⟩ ++ rest))
      rw [List.append_assoc, stringBody?_escape (by decide) hescape hbreak, ih (by omega)]
      rfl
    · rw [stringBody?_verbatim hverbatim, ih (by omega)]
      rfl

theorem stringBody?_literal {quote : Char} {cs : List Char}
    (hcs : ∀ c ∈ cs, isPlain c = true ∨ c = '\n') (hthree : hasThree quote cs = false)
    {rest : List Char} (hrest : Stops quote rest) :
    stringBody? ⟨quote, false, true⟩ (cs ++ (threeOf quote ++ rest)) = some (cs, rest) := by
  induction cs with
  | nil => exact stringBody?_close false (n := 0) (by omega) hrest
  | cons c cs ih =>
    simp only [hasThree, Bool.or_eq_false_iff] at hthree
    have htail := ih (fun d hd => hcs d (List.mem_cons_of_mem _ hd)) hthree.2
    by_cases hc : c = quote
    · subst hc
      have hfew : ¬ threeOf c <+: c :: cs := fun h =>
        Bool.false_ne_true (hthree.1.symm.trans (List.isPrefixOf_iff_prefix.mpr h))
      rw [List.cons_append, stringBody?_quote hfew hrest, htail]
      rfl
    · have hverbatim : Verbatim ⟨quote, false, true⟩ c :=
        ⟨hc, (absurd · Bool.false_ne_true),
          (hcs c (by simp)).imp_right fun hnewline => ⟨hnewline, rfl⟩⟩
      rw [List.cons_append, stringBody?_verbatim hverbatim, htail]
      rfl

theorem stringBody?_line {quote : Char} {cs : List Char}
    (hcs : ∀ c ∈ cs, isPlain c = true ∧ c ≠ quote) (rest : List Char) :
    stringBody? ⟨quote, false, false⟩ (cs ++ quote :: rest) = some (cs, rest) := by
  induction cs with
  | nil => rw [List.nil_append, stringBody?, if_pos rfl]; rfl
  | cons c cs ih =>
    have hc := hcs c (by simp)
    have hverbatim : Verbatim ⟨quote, false, false⟩ c :=
      ⟨hc.2, (absurd · Bool.false_ne_true), .inl hc.1⟩
    rw [List.cons_append, stringBody?_verbatim hverbatim,
      ih fun d hd => hcs d (List.mem_cons_of_mem _ hd)]
    rfl

/-! ## The four styles -/

def packed (r : List Char × List Char) : String × List Char := (String.ofList r.1, r.2)

theorem anyString_double {text : List Char} (h : ¬ ['"', '"'] <+: text) :
    anyString.run ('"' :: text) = (stringBody? ⟨'"', true, false⟩ text).map packed := by
  unfold anyString
  dsimp only
  split
  · rename_i htext
    cases htext
    exact absurd (by simp) h
  · rename_i htext
    cases htext
  · rfl

theorem anyString_single {text : List Char} (h : ¬ ['\x27', '\x27'] <+: text) :
    anyString.run ('\x27' :: text) = (stringBody? ⟨'\x27', false, false⟩ text).map packed := by
  unfold anyString
  dsimp only
  split
  · rename_i htext
    cases htext
  · rename_i htext
    cases htext
    exact absurd (by simp) h
  · rfl

theorem anyString_doubles (text : List Char) : anyString.run (threeOf '"' ++ text) =
    (stringBody? ⟨'"', true, true⟩ ((lineBreak? text).getD text)).map packed := rfl

theorem anyString_singles (text : List Char) : anyString.run (threeOf '\x27' ++ text) =
    (stringBody? ⟨'\x27', false, true⟩ ((lineBreak? text).getD text)).map packed := rfl

def openingOf (cs : List Char) : List Char := if cs.contains '\n' then ['\n'] else []

def Opens (cs text : List Char) : Prop := '\n' ∉ cs → ∀ c ∈ text.head?, c ≠ '\n' ∧ c ≠ '\r'

theorem lineBreak?_opening {cs text : List Char} (h : Opens cs text) :
    (lineBreak? (openingOf cs ++ text)).getD (openingOf cs ++ text) = text := by
  by_cases hlines : '\n' ∈ cs
  · rw [openingOf, if_pos (by simpa using hlines)]
    rfl
  · have hnone : lineBreak? text = none := by
      unfold lineBreak?
      split
      · exact absurd rfl (h hlines '\n' rfl).1
      · exact absurd rfl (h hlines '\r' rfl).2
      · rfl
    rw [openingOf, if_neg (by simpa using hlines), List.nil_append, hnone]
    rfl

section Styles

variable {cs rest : List Char}

theorem not_twice {q : Char} {text : List Char} (htext : ∀ c ∈ text.head?, c ≠ q)
    (hrest : Stops q rest) : ¬ [q, q] <+: text ++ q :: rest := by
  intro h
  cases text with
  | nil =>
    cases rest with
    | nil => simp at h
    | cons c rest =>
      have hc : q = c := by simpa using h
      exact hrest c rfl hc.symm
  | cons c text =>
    have hc : q = c := (List.cons_prefix_cons.mp h).1
    exact htext c rfl hc.symm

theorem anyString_oneLine (cs : List Char) (hrest : Stops '"' rest) :
    anyString.run ('"' :: (escaped false 0 cs ++ '"' :: rest)) = some (String.ofList cs, rest) := by
  have hfirst : ∀ c ∈ (escaped false 0 cs).head?, c ≠ '"' := by
    cases cs with
    | nil => simp [escaped]
    | cons c cs =>
      obtain ⟨-, hfalse, -⟩ | ⟨tail, hwritten, -⟩ | ⟨hverbatim, hwritten⟩ :=
        escaped_cons false 0 c cs
      · cases hfalse
      · rw [hwritten]
        rintro _ ⟨⟩
        decide
      · rw [hwritten]
        rintro _ ⟨⟩
        exact hverbatim.notQuote
  have hbody : stringBody? ⟨'"', true, false⟩ (escaped false 0 cs ++ '"' :: rest) = some (cs, rest) :=
    stringBody?_escaped false (by omega) cs hrest
  rw [anyString_double (not_twice hfirst hrest), hbody]
  rfl

theorem anyString_literalLine (hcs : ∀ c ∈ cs, isPlain c = true ∧ c ≠ '\x27')
    (hrest : Stops '\x27' rest) :
    anyString.run ('\x27' :: (cs ++ '\x27' :: rest)) = some (String.ofList cs, rest) := by
  have hfirst : ∀ c ∈ cs.head?, c ≠ '\x27' := fun c hc => (hcs c (List.mem_of_mem_head? hc)).2
  rw [anyString_single (not_twice hfirst hrest), stringBody?_line hcs]
  rfl

theorem isPlain_ne_return {c : Char} (h : isPlain c = true) : c ≠ '\r' := by
  rintro rfl
  exact absurd h (by decide)

theorem escaped_opens (cs tail : List Char) :
    Opens cs (escaped true 0 cs ++ (threeOf '"' ++ tail)) := by
  intro hlines
  cases cs with
  | nil =>
    rintro _ ⟨⟩
    decide
  | cons c cs =>
    obtain ⟨-, -, -, hwritten⟩ | ⟨_, hwritten, -⟩ | ⟨hverbatim, hwritten⟩ := escaped_cons true 0 c cs
    · rw [hwritten]
      rintro _ ⟨⟩
      decide
    · rw [hwritten]
      rintro _ ⟨⟩
      decide
    · rw [hwritten]
      rintro _ ⟨⟩
      have hnewline : c ≠ '\n' := fun hc => hlines (by simp [hc])
      refine ⟨hnewline, ?_⟩
      rcases hverbatim.legible with hplain | ⟨hc, -⟩
      · exact isPlain_ne_return hplain
      · exact absurd hc hnewline

theorem anyString_severalLines (cs : List Char) (hrest : Stops '"' rest) :
    anyString.run (threeOf '"' ++ (openingOf cs ++ (escaped true 0 cs ++ (threeOf '"' ++ rest)))) =
      some (String.ofList cs, rest) := by
  have hbody : stringBody? ⟨'"', true, true⟩ (escaped true 0 cs ++ (threeOf '"' ++ rest)) =
      some (cs, rest) := stringBody?_escaped true (by omega) cs hrest
  rw [anyString_doubles, lineBreak?_opening (escaped_opens cs rest), hbody]
  rfl

theorem anyString_literalLines (hcs : ∀ c ∈ cs, isPlain c = true ∨ c = '\n')
    (hthree : hasThree '\x27' cs = false) (hrest : Stops '\x27' rest) :
    anyString.run (threeOf '\x27' ++ (openingOf cs ++ (cs ++ (threeOf '\x27' ++ rest)))) =
      some (String.ofList cs, rest) := by
  have hopens : Opens cs (cs ++ (threeOf '\x27' ++ rest)) := by
    intro hlines
    cases cs with
    | nil =>
      rintro _ ⟨⟩
      decide
    | cons c cs =>
      rintro _ ⟨⟩
      have hnewline : c ≠ '\n' := fun hc => hlines (by simp [hc])
      exact ⟨hnewline, isPlain_ne_return ((hcs c (by simp)).resolve_right hnewline)⟩
  rw [anyString_singles, lineBreak?_opening hopens, stringBody?_literal hcs hthree hrest]
  rfl

end Styles

/-- Whatever style it is written in, a string is read back. -/
theorem anyString_stringText (s : String) {rest : List Char} (hdouble : Stops '"' rest)
    (hsingle : Stops '\x27' rest) : anyString.run (stringText s ++ rest) = some (s, rest) := by
  have hlegible (hclean : (!s.toList.any needsEscape) = true) :
      ∀ c ∈ s.toList, isPlain c = true ∨ c = '\n' := by
    intro c hc
    simp only [Bool.not_eq_true', List.any_eq_false] at hclean
    exact legible_of_needsEscape (hclean c hc)
  have honeLine := anyString_oneLine s.toList hdouble
  have hseveral := anyString_severalLines s.toList hdouble
  rw [String.ofList_toList] at honeLine hseveral
  unfold stringText
  dsimp only
  split
  · simpa using honeLine
  split
  · rename_i hstyle
    simp only [Bool.and_eq_true, Bool.not_eq_true'] at hstyle
    obtain ⟨⟨hclean, hlines⟩, hquote⟩ := hstyle
    have hchars : ∀ c ∈ s.toList, isPlain c = true ∧ c ≠ '\x27' := by
      intro c hc
      have hnewline : c ≠ '\n' := by
        rintro rfl
        simp [hc] at hlines
      have hsame : c ≠ '\x27' := by
        rintro rfl
        simp [hc] at hquote
      exact ⟨(hlegible (by simpa using hclean) c hc).resolve_right hnewline, hsame⟩
    have hliteral := anyString_literalLine hchars hsingle
    rw [String.ofList_toList] at hliteral
    simpa using hliteral
  split
  · simpa [openingOf] using hseveral
  split
  · rename_i hstyle
    simp only [Bool.and_eq_true, Bool.not_eq_true'] at hstyle
    have hliteral := anyString_literalLines (hlegible (by simpa using hstyle.1)) hstyle.2 hsingle
    rw [String.ofList_toList] at hliteral
    simpa [openingOf] using hliteral
  split
  · rename_i hlines
    rw [openingOf, if_pos hlines] at hseveral
    simpa using hseveral
  · simpa using honeLine

end LineShell.Toml
