import LineShell.Proofs.WrittenStrings
import LineShell.Toml.Document
import Mathlib.Data.List.Nodup

/-!
# Documents read back

A written value is read where a line ends after it, a pair adds its value to the
table under way, and a header opens its table. What a written document says is
thus what its lines do, one after another.
-/

set_option autoImplicit false

namespace LineShell.Toml

/-! ## What is skipped -/

structure Solid (c : Char) : Prop where
  notGap : isGap c = false
  notNewline : c ≠ '\n'
  notReturn : c ≠ '\r'
  notHash : c ≠ '#'

section Skipping

variable {c : Char} {cs ds rest : List Char}

theorem skipLines_solid (h : Solid c) : skipLines (c :: rest) = c :: rest := by
  unfold skipLines
  split
  · rename_i heq
    exact absurd (List.cons.inj heq).1 h.notReturn
  · rename_i heq
    cases heq
    rw [if_neg (by simp [h.notGap, h.notNewline])]
  · rename_i heq
    cases heq

theorem skipLines_cons (h : isGap c = true ∨ c = '\n') : skipLines (c :: rest) = skipLines rest := by
  have hreturn : c ≠ '\r' := by
    rintro rfl
    rcases h with hgap | hnewline
    · exact absurd hgap (by decide)
    · exact absurd hnewline (by decide)
  rw [skipLines.eq_def]
  split
  · rename_i heq
    exact absurd (List.cons.inj heq).1 hreturn
  · rename_i heq
    cases heq
    rw [if_pos (by simpa using h)]
  · rename_i heq
    cases heq

theorem skipComments_congr (h : skipLines cs = skipLines ds) : skipComments cs = skipComments ds := by
  rw [skipComments, skipComments]
  split
  · rename_i rest hcs
    split
    · rename_i other hds
      rw [show rest = other from (List.cons.inj (hcs.symm.trans (h.trans hds))).2]
    · rename_i hds
      exact absurd (h.symm.trans hcs) (hds _)
  · rename_i hcs
    split
    · rename_i other hds
      exact absurd (h.trans hds) (hcs _)
    · exact h

theorem skipComments_solid (h : Solid c) : skipComments (c :: rest) = c :: rest := by
  rw [skipComments]
  split
  · rename_i heq
    rw [skipLines_solid h] at heq
    exact absurd (List.cons.inj heq).1 h.notHash
  · exact skipLines_solid h

theorem skipComments_nil : skipComments [] = [] := by
  rw [skipComments]
  rfl

theorem skipComments_cons (h : isGap c = true ∨ c = '\n') :
    skipComments (c :: rest) = skipComments rest :=
  skipComments_congr (skipLines_cons h)

end Skipping

/-! ## Values -/

theorem stringText_quoted (s : String) :
    ∃ q text, stringText s = q :: text ∧ (q = '"' ∨ q = '\x27') := by
  unfold stringText
  dsimp only
  repeat' split
  all_goals first
    | exact ⟨'"', _, rfl, .inl rfl⟩
    | exact ⟨'\x27', _, rfl, .inr rfl⟩

theorem quote_solid {q : Char} (h : q = '"' ∨ q = '\x27') : Solid q := by
  rcases h with rfl | rfl
  · exact ⟨by decide, by decide, by decide, by decide⟩
  · exact ⟨by decide, by decide, by decide, by decide⟩

theorem skipComments_stringText (s : String) (rest : List Char) :
    skipComments (stringText s ++ rest) = stringText s ++ rest := by
  obtain ⟨q, text, hs, hq⟩ := stringText_quoted s
  rw [hs]
  exact skipComments_solid (quote_solid hq)

theorem value_stringText (depth : Nat) (s : String) {c : Char} {rest : List Char}
    (hc : c ≠ '"' ∧ c ≠ '\x27') :
    (value depth).run (stringText s ++ c :: rest) = some (.string s, c :: rest) := by
  have hstring : anyString.run (stringText s ++ c :: rest) = some (s, c :: rest) := by
    refine anyString_stringText s ?_ ?_
    · rintro _ ⟨⟩
      exact hc.1
    · rintro _ ⟨⟩
      exact hc.2
  have hscalar : value.scalarOrString.run (stringText s ++ c :: rest) =
      some (.string s, c :: rest) := by
    show ((anyString.run (stringText s ++ c :: rest)).map _).or _ = _
    rw [hstring]
    rfl
  obtain ⟨q, text, hs, hq⟩ := stringText_quoted s
  rw [hs, List.cons_append] at hscalar ⊢
  cases depth with
  | zero => exact hscalar
  | succ depth =>
    rcases hq with rfl | rfl
    · exact hscalar
    · exact hscalar

section Arrays

variable {inner : Reader Value} {cs rest after : List Char} {v : Value}

theorem arrayItems_end (h : skipComments cs = ']' :: rest) : arrayItems inner cs = some ([], rest) := by
  rw [arrayItems]
  split
  · rename_i heq
    rw [h] at heq
    cases heq
    rfl
  · rename_i heq
    exact absurd h (heq _)

theorem arrayItems_item {start : List Char} (hcs : skipComments cs = start)
    (hstart : start.head? ≠ some ']') (hv : inner.run start = some (v, rest)) :
    arrayItems inner cs =
      match skipComments rest with
      | ',' :: after => (arrayItems inner after).map fun r => (v :: r.1, r.2)
      | ']' :: after => some ([v], after)
      | _ => none := by
  subst hcs
  rw [arrayItems]
  split
  · rename_i heq
    exact absurd (congrArg List.head? heq) hstart
  split
  · rename_i hnone
    cases hnone.symm.trans hv
  rename_i found left hsome
  cases hsome.symm.trans hv
  split
  · rename_i heq
    rw [heq]
    rfl
  · rename_i heq
    rw [heq]
    rfl
  · rename_i hcomma hbracket
    split
    · rename_i heq
      exact absurd heq (hcomma _)
    · rename_i heq
      exact absurd heq (hbracket _)
    · rfl

end Arrays

def itemLines (items : List String) : List Char :=
  items.flatMap fun s => "    ".toList ++ stringText s ++ ",\n".toList

theorem skipComments_indented (text : List Char) :
    skipComments ('\n' :: ("    ".toList ++ text)) = skipComments text := by
  have hblank : isGap ' ' = true ∨ ' ' = '\n' := .inl (by decide)
  have hnewline : isGap '\n' = true ∨ '\n' = '\n' := .inr rfl
  show skipComments ('\n' :: ' ' :: ' ' :: ' ' :: ' ' :: text) = _
  rw [skipComments_cons hnewline, skipComments_cons hblank, skipComments_cons hblank,
    skipComments_cons hblank, skipComments_cons hblank]

theorem comma_solid : Solid ',' := ⟨by decide, by decide, by decide, by decide⟩

theorem bracket_solid : Solid ']' := ⟨by decide, by decide, by decide, by decide⟩

theorem stringText_head (s : String) (rest : List Char) :
    (stringText s ++ rest).head? ≠ some ']' := by
  obtain ⟨q, text, hs, rfl | rfl⟩ := stringText_quoted s <;> simp [hs]

theorem arrayItems_lines (depth : Nat) (items : List String) (rest : List Char) :
    arrayItems (value depth) ('\n' :: (itemLines items ++ ']' :: rest)) =
      some (items.map .string, rest) := by
  induction items with
  | nil =>
    have hend : skipComments ('\n' :: ']' :: rest) = ']' :: rest := by
      rw [skipComments_cons (.inr rfl), skipComments_solid bracket_solid]
    exact arrayItems_end hend
  | cons s items ih =>
    have hcs : skipComments ('\n' :: (itemLines (s :: items) ++ ']' :: rest)) =
        stringText s ++ ',' :: '\n' :: (itemLines items ++ ']' :: rest) := by
      have htext : itemLines (s :: items) ++ ']' :: rest =
          "    ".toList ++ (stringText s ++ ',' :: '\n' :: (itemLines items ++ ']' :: rest)) := by
        simp [itemLines]
      rw [htext, skipComments_indented, skipComments_stringText]
    rw [arrayItems_item hcs (stringText_head s _) (value_stringText depth s (by decide)),
      skipComments_solid comma_solid]
    show (arrayItems (value depth) ('\n' :: (itemLines items ++ ']' :: rest))).map _ = _
    rw [ih]
    rfl

/-- An array of strings is read back, however many there are. -/
theorem value_arrayText (depth : Nat) (items : List String) (rest : List Char) :
    (value (depth + 1)).run (arrayText items ++ rest) =
      some (.array (items.map .string), rest) := by
  have harray (text : List Char) : (value (depth + 1)).run ('[' :: text) =
      (arrayItems (value depth) text).map fun r => (.array r.1, r.2) := rfl
  match items with
  | [] =>
    refine (harray (']' :: rest)).trans ?_
    rw [arrayItems_end (skipComments_solid bracket_solid)]
    rfl
  | [s] =>
    have htext : arrayText [s] ++ rest = '[' :: (stringText s ++ ']' :: rest) := by
      simp [arrayText]
    rw [htext, harray, arrayItems_item (skipComments_stringText s _) (stringText_head s _)
      (value_stringText depth s (by decide)), skipComments_solid bracket_solid]
    rfl
  | s :: s' :: items =>
    have htext : arrayText (s :: s' :: items) ++ rest =
        '[' :: '\n' :: (itemLines (s :: s' :: items) ++ ']' :: rest) := by
      simp [arrayText, itemLines]
    rw [htext, harray, arrayItems_lines]
    rfl

/-- A text that is read as a value where a line ends after it. -/
structure Denotes (text : List Char) (v : Value) : Prop where
  starts : ∀ c ∈ text.head?, isGap c = false
  read : ∀ rest, (value (depthLimit - 1)).run (text ++ '\n' :: rest) = some (v, '\n' :: rest)

theorem stringText_denotes (s : String) : Denotes (stringText s) (.string s) where
  starts := by
    obtain ⟨q, text, hs, hq⟩ := stringText_quoted s
    rw [hs]
    rintro _ ⟨⟩
    exact (quote_solid hq).notGap
  read _ := value_stringText _ s (by decide)

theorem arrayText_denotes (items : List String) :
    Denotes (arrayText items) (.array (items.map .string)) where
  starts := by
    have hstart : (arrayText items).head? = some '[' := by
      match items with
      | [] | [_] | _ :: _ :: _ => rfl
    rw [hstart]
    rintro _ ⟨⟩
    decide
  read _ := value_arrayText _ items _

theorem booleanText_denotes (b : Bool) : Denotes (booleanText b) (.boolean b) where
  starts := by
    cases b <;> (rintro _ ⟨⟩; decide)
  read _ := by cases b <;> rfl

/-! ## Keys and pairs -/

structure IsBare (name : String) : Prop where
  nonempty : name.toList ≠ []
  bare : ∀ c ∈ name.toList, isBareKeyChar c = true

instance (name : String) : Decidable (IsBare name) :=
  decidable_of_iff (name.toList ≠ [] ∧ name.toList.all isBareKeyChar = true)
    ⟨fun h => ⟨h.1, List.all_eq_true.mp h.2⟩, fun h => ⟨h.nonempty, List.all_eq_true.mpr h.bare⟩⟩

theorem bareKeyChar_solid {c : Char} (h : isBareKeyChar c = true) : Solid c := by
  have hne : ∀ d : Char, isBareKeyChar d = false → c ≠ d := by
    rintro d hd rfl
    rw [h] at hd
    cases hd
  refine ⟨?_, hne _ (by decide), hne _ (by decide), hne _ (by decide)⟩
  simp [isGap, hne ' ' (by decide), hne '\t' (by decide)]

section Keys

variable {name : String} {rest : List Char}

theorem IsBare.first (h : IsBare name) : ∃ c text, name.toList = c :: text ∧ isBareKeyChar c = true := by
  obtain ⟨c, text, hname⟩ := List.exists_cons_of_ne_nil h.nonempty
  exact ⟨c, text, hname, h.bare c (by simp [hname])⟩

theorem bareKey_name (h : IsBare name) (hrest : ∀ c ∈ rest.head?, isBareKeyChar c = false) :
    bareKey.run (name.toList ++ rest) = some (name, rest) := by
  have hstop : rest.takeWhile isBareKeyChar = [] ∧ rest.dropWhile isBareKeyChar = rest := by
    cases rest with
    | nil => exact ⟨rfl, rfl⟩
    | cons c rest => simp [hrest c rfl]
  have htake : (name.toList ++ rest).takeWhile isBareKeyChar = name.toList := by
    rw [List.takeWhile_append_of_pos h.bare, hstop.1, List.append_nil]
  have hdrop : (name.toList ++ rest).dropWhile isBareKeyChar = rest := by
    rw [List.dropWhile_append_of_pos h.bare, hstop.2]
  unfold bareKey
  dsimp only
  rw [htake, hdrop, if_neg h.nonempty, String.ofList_toList]

theorem keyPart_name (h : IsBare name) (hrest : ∀ c ∈ rest.head?, isBareKeyChar c = false) :
    keyPart.run (name.toList ++ rest) = some (name, rest) := by
  have hquoted : oneLineString.run (name.toList ++ rest) = none := by
    obtain ⟨c, text, hname, hc⟩ := h.first
    rw [hname]
    unfold oneLineString
    dsimp only
    split
    · rename_i heq
      cases heq
      exact absurd hc (by decide)
    · rename_i heq
      cases heq
      exact absurd hc (by decide)
    · rfl
  show (oneLineString.run (name.toList ++ rest)).or (bareKey.run (name.toList ++ rest)) = _
  rw [hquoted, bareKey_name h hrest]
  rfl

theorem key_name (h : IsBare name) (hrest : ∀ c ∈ rest.head?, isBareKeyChar c = false)
    (hpoint : (skipGaps rest).head? ≠ some '.') :
    key.run (name.toList ++ rest) = some ([name], skipGaps rest) := by
  have hskip : skipGaps (name.toList ++ rest) = name.toList ++ rest := by
    obtain ⟨c, text, hname, hc⟩ := h.first
    rw [hname]
    exact List.dropWhile_cons_of_neg (by simp [(bareKeyChar_solid hc).notGap])
  have hparts : keyParts (name.toList ++ rest) = some ([name], skipGaps rest) := by
    rw [keyParts]
    split
    · rename_i hnone
      rw [hskip, keyPart_name h hrest] at hnone
      cases hnone
    · rename_i part after hsome
      rw [hskip, keyPart_name h hrest] at hsome
      cases hsome
      split
      · rename_i heq
        exact absurd (congrArg List.head? heq) hpoint
      · rfl
  show (keyParts (name.toList ++ rest)).filter _ = _
  rw [hparts]
  rfl

theorem skipGaps_of_head {cs : List Char} (h : ∀ c ∈ cs.head?, isGap c = false) :
    skipGaps cs = cs := by
  cases cs with
  | nil => rfl
  | cons c cs => exact List.dropWhile_cons_of_neg (by simp [h c rfl])

theorem Denotes.head {text : List Char} {v : Value} (h : Denotes text v) :
    ∀ c ∈ (text ++ '\n' :: rest).head?, isGap c = false := by
  cases text with
  | nil =>
    rintro _ ⟨⟩
    decide
  | cons c text =>
    rintro _ ⟨⟩
    exact h.starts c rfl

theorem pair_pairText (h : IsBare name) {text : List Char} {v : Value} (hv : Denotes text v)
    (rest : List Char) :
    (pair (value (depthLimit - 1))).run (pairText name text ++ rest) =
      some (([name], v), '\n' :: rest) := by
  have htext : pairText name text ++ rest =
      name.toList ++ (' ' :: '=' :: ' ' :: (text ++ '\n' :: rest)) := by
    simp [pairText]
  have hkey : key.run (name.toList ++ (' ' :: '=' :: ' ' :: (text ++ '\n' :: rest))) =
      some ([name], '=' :: ' ' :: (text ++ '\n' :: rest)) := by
    refine key_name h ?_ ?_
    · rintro _ ⟨⟩
      decide
    · rintro ⟨⟩
  have hvalue : skipGaps (' ' :: (text ++ '\n' :: rest)) = text ++ '\n' :: rest :=
    skipGaps_of_head hv.head
  unfold pair
  dsimp only
  rw [htext, hkey]
  show ((value (depthLimit - 1)).run (skipGaps (' ' :: (text ++ '\n' :: rest)))).map _ = _
  rw [hvalue, hv.read]
  rfl

theorem header?_name (h : IsBare name) (rest : List Char) :
    header? 1 (name.toList ++ ']' :: rest) = some ([name], rest) := by
  have hkey : key.run (name.toList ++ ']' :: rest) = some ([name], ']' :: rest) := by
    refine key_name h ?_ ?_
    · rintro _ ⟨⟩
      decide
    · rintro ⟨⟩
  rw [header?, hkey]
  rfl

end Keys

/-! ## Lines -/

section Lines

variable {p : Progress} {name : String} {rest : List Char}

theorem lines?_eq (p : Progress) (cs : List Char) : lines? p cs =
    match skipComments cs with
    | [] => some p
    | c :: rest =>
      match statement? p (c :: rest) with
      | none => none
      | some (q, after) =>
        match lineEnd? after with
        | none => none
        | some next => lines? q next := by
  rw [lines?]
  split
  · rename_i heq
    rw [heq]
  · rename_i c rest heq
    rw [heq]
    dsimp only
    split
    · rename_i hs
      rw [hs]
    · rename_i q after hs
      rw [hs]
      dsimp only
      split
      · rename_i hl
        rw [hl]
      · rename_i hl
        rw [hl]

theorem lines?_congr {cs ds : List Char} (h : skipComments cs = skipComments ds) :
    lines? p cs = lines? p ds := by
  rw [lines?_eq, h, ← lines?_eq]

theorem lines?_nil : lines? p [] = some p := by
  rw [lines?_eq, skipComments_nil]

theorem lines?_blank : lines? p ('\n' :: rest) = lines? p rest :=
  lines?_congr (skipComments_cons (.inr rfl))

theorem lines?_statement {c : Char} {cs : List Char} (hc : Solid c) {q : Progress}
    (h : statement? p (c :: cs) = some (q, '\n' :: rest)) :
    lines? p (c :: cs) = lines? q rest := by
  have hend : lineEnd? ('\n' :: rest) = some rest := rfl
  rw [lines?_eq, skipComments_solid hc]
  dsimp only
  rw [h]
  dsimp only
  rw [hend]

theorem lines?_pairText (h : IsBare name) {text : List Char} {v : Value} (hv : Denotes text v)
    {q : Progress} (hq : p.addPair? [name] v = some q) :
    lines? p (pairText name text ++ rest) = lines? q rest := by
  obtain ⟨c, tail, hname, hc⟩ := h.first
  have hsplit : pairText name text ++ rest =
      c :: (tail ++ " = ".toList ++ text ++ '\n' :: rest) := by
    simp [pairText, hname]
  have hstatement : statement? p (pairText name text ++ rest) = some (q, '\n' :: rest) := by
    have hpair := pair_pairText h hv rest
    rw [hsplit] at hpair ⊢
    have hheader : c ≠ '[' := by
      rintro rfl
      exact absurd hc (by decide)
    unfold statement?
    split
    · rename_i heq
      exact absurd (List.cons.inj heq).1 hheader
    · rename_i heq
      exact absurd (List.cons.inj heq).1 hheader
    · rw [hpair]
      dsimp only
      rw [hq]
      rfl
  rw [hsplit] at hstatement ⊢
  exact lines?_statement (bareKeyChar_solid hc) hstatement

theorem lines?_header (h : IsBare name) {q : Progress} (hq : p.openTable? [name] = some q) :
    lines? p ('[' :: (name.toList ++ "]\n".toList ++ rest)) = lines? q rest := by
  have hsplit : name.toList ++ "]\n".toList ++ rest = name.toList ++ ']' :: '\n' :: rest := by simp
  have hstatement : statement? p ('[' :: (name.toList ++ ']' :: '\n' :: rest)) =
      some (q, '\n' :: rest) := by
    obtain ⟨c, tail, hname, hc⟩ := h.first
    have hheader := header?_name h ('\n' :: rest)
    rw [hname] at hheader ⊢
    unfold statement?
    split
    · rename_i heq
      have hbracket : c = '[' := (List.cons.inj (List.cons.inj heq).2).1
      subst hbracket
      exact absurd hc (by decide)
    · rename_i heq
      cases heq
      rw [hheader]
      dsimp only
      rw [hq]
      rfl
    · rename_i hother
      exact absurd rfl (hother _)
  rw [hsplit]
  exact lines?_statement ⟨by decide, by decide, by decide, by decide⟩ hstatement

end Lines

/-! ## Tables -/

namespace Tables

variable {fields : Fields} {k : String} {e e' : Entry}

def keys (fields : Fields) : List String := fields.map Prod.fst

theorem store_new (h : k ∉ keys fields) (e : Entry) : store fields k e = fields ++ [(k, e)] := by
  have hany : ¬ fields.any (·.1 = k) = true := by
    simpa [keys] using h
  rw [store, if_neg hany]

theorem lookup_new (h : k ∉ keys fields) : fields.lookup k = none := by
  rw [List.lookup_eq_none_iff]
  intro field hfield
  rw [bne_iff_ne]
  rintro rfl
  exact h (List.mem_map_of_mem hfield)

theorem lookup_last (h : k ∉ keys fields) (e : Entry) : (fields ++ [(k, e)]).lookup k = some e := by
  rw [List.lookup_append, lookup_new h]
  simp

theorem store_last (h : k ∉ keys fields) (e e' : Entry) :
    store (fields ++ [(k, e)]) k e' = fields ++ [(k, e')] := by
  have hsame : fields.map (fun f => if f.1 = k then (k, e') else f) = fields := by
    have hother : ∀ f ∈ fields, (if f.1 = k then (k, e') else f) = f := by
      rintro f hf
      refine if_neg ?_
      rintro rfl
      exact h (List.mem_map_of_mem hf)
    exact (List.map_congr_left hother).trans (List.map_id _)
  rw [store, if_pos (by simp), List.map_append, hsame]
  simp

theorem openTable_new (h : k ∉ keys fields) :
    openTable fields [k] = some (fields ++ [(k, .table .header [])]) := by
  rw [openTable, update, lookup_new h]
  exact congrArg some (store_new h _)

theorem addPairAt_last (h : k ∉ keys fields) {inner : Fields} {name : String}
    (hname : name ∉ keys inner) (v : Value) (origin : Origin) :
    addPairAt (fields ++ [(k, .table origin inner)]) [k] [name] v =
      some (fields ++ [(k, .table origin (inner ++ [(name, .value v)]))]) := by
  have hinner : addPair inner [name] v = some (inner ++ [(name, .value v)]) := by
    rw [addPair, update, lookup_new hname]
    exact congrArg some (store_new hname _)
  rw [addPairAt, update, lookup_last h, through, addPairAt, hinner]
  exact congrArg some (store_last h _ _)

end Tables

/-! ## Sections -/

structure Setting where
  name : String
  text : List Char
  value : Value

structure Setting.Valid (s : Setting) : Prop where
  bare : IsBare s.name
  denotes : Denotes s.text s.value

namespace Setting

variable {name : String}

def string (name s : String) : Setting := ⟨name, stringText s, .string s⟩

def strings (name : String) (items : List String) : Setting :=
  ⟨name, arrayText items, .array (items.map .string)⟩

def boolean (name : String) (b : Bool) : Setting := ⟨name, booleanText b, .boolean b⟩

theorem string_valid (h : IsBare name) (s : String) : (string name s).Valid :=
  ⟨h, stringText_denotes s⟩

theorem strings_valid (h : IsBare name) (items : List String) : (strings name items).Valid :=
  ⟨h, arrayText_denotes items⟩

theorem boolean_valid (h : IsBare name) (b : Bool) : (boolean name b).Valid :=
  ⟨h, booleanText_denotes b⟩

end Setting

structure Section where
  name : String
  settings : List Setting

namespace Section

def source (s : Section) : List Char :=
  sectionText s.name (s.settings.map fun t => pairText t.name t.text)

def entries (settings : List Setting) : Tables.Fields :=
  settings.map fun t => (t.name, .value t.value)

def fields (sections : List Section) : Tables.Fields :=
  sections.map fun s => (s.name, .table .header (entries s.settings))

structure Valid (s : Section) : Prop where
  bare : IsBare s.name
  settings : ∀ t ∈ s.settings, t.Valid
  distinct : (s.settings.map Setting.name).Nodup

end Section

section Sections

variable {fields done : Tables.Fields} {name : String} {rest : List Char}

theorem lines?_settings (hname : name ∉ Tables.keys fields) {settings : List Setting}
    (hvalid : ∀ t ∈ settings, t.Valid)
    (hdistinct : (Tables.keys done ++ settings.map Setting.name).Nodup) :
    lines? ⟨fields ++ [(name, .table .header done)], [name]⟩
        ((settings.map fun t => pairText t.name t.text).flatten ++ rest) =
      lines? ⟨fields ++ [(name, .table .header (done ++ Section.entries settings))], [name]⟩ rest := by
  induction settings generalizing done with
  | nil => simp [Section.entries]
  | cons t settings ih =>
    obtain ⟨ht, hothers⟩ := List.forall_mem_cons.mp hvalid
    have hnew : t.name ∉ Tables.keys done := fun hmem =>
      List.disjoint_of_nodup_append hdistinct hmem (by simp)
    have hadd : Progress.addPair? ⟨fields ++ [(name, .table .header done)], [name]⟩ [t.name] t.value =
        some ⟨fields ++ [(name, .table .header (done ++ [(t.name, .value t.value)]))], [name]⟩ := by
      rw [Progress.addPair?, Tables.addPairAt_last hname hnew]
      rfl
    have hrest : (Tables.keys (done ++ [(t.name, .value t.value)]) ++
        settings.map Setting.name).Nodup := by
      simpa [Tables.keys] using hdistinct
    rw [List.map_cons, List.flatten_cons, List.append_assoc,
      lines?_pairText ht.bare ht.denotes hadd, ih hothers hrest]
    simp [Section.entries]

theorem lines?_source {s : Section} (hs : s.Valid) (hname : s.name ∉ Tables.keys fields)
    (current : List String) (rest : List Char) :
    lines? ⟨fields, current⟩ (s.source ++ rest) =
      lines? ⟨fields ++ [(s.name, .table .header (Section.entries s.settings))], [s.name]⟩ rest := by
  have hopen : Progress.openTable? ⟨fields, current⟩ [s.name] =
      some ⟨fields ++ [(s.name, .table .header [])], [s.name]⟩ := by
    rw [Progress.openTable?, Tables.openTable_new hname]
    rfl
  have hsplit : s.source ++ rest = '[' :: (s.name.toList ++ "]\n".toList ++
      ((s.settings.map fun t => pairText t.name t.text).flatten ++ rest)) := by
    simp [Section.source, sectionText]
  rw [hsplit, lines?_header hs.bare hopen, lines?_settings hname hs.settings
    (by simpa [Tables.keys] using hs.distinct)]
  rfl

theorem lines?_sections {sections : List Section} (hvalid : ∀ s ∈ sections, s.Valid)
    (hdistinct : (Tables.keys fields ++ sections.map Section.name).Nodup) (current : List String) :
    (lines? ⟨fields, current⟩ (['\n'].intercalate (sections.map Section.source))).map
      Progress.fields = some (fields ++ Section.fields sections) := by
  induction sections generalizing fields current with
  | nil =>
    rw [List.map_nil, List.intercalate_nil, lines?_nil]
    simp [Section.fields]
  | cons s sections ih =>
    obtain ⟨hs, hothers⟩ := List.forall_mem_cons.mp hvalid
    have hname : s.name ∉ Tables.keys fields := fun hmem =>
      List.disjoint_of_nodup_append hdistinct hmem (by simp)
    have hrest : (Tables.keys (fields ++ [(s.name, .table .header (Section.entries s.settings))]) ++
        sections.map Section.name).Nodup := by
      simpa [Tables.keys] using hdistinct
    have hlater := ih hothers hrest [s.name]
    have hsplit : ∃ rest, ['\n'].intercalate ((s :: sections).map Section.source) =
        s.source ++ rest ∧ ∀ p, lines? p rest =
          lines? p (['\n'].intercalate (sections.map Section.source)) := by
      cases sections with
      | nil => exact ⟨[], by simp, fun p => rfl⟩
      | cons t sections =>
        refine ⟨'\n' :: _, ?_, fun p => lines?_blank⟩
        rw [List.map_cons, List.map_cons, List.intercalate_cons_cons]
        simp
    obtain ⟨rest, hsource, hlines⟩ := hsplit
    rw [hsource, lines?_source hs hname, hlines, hlater]
    simp [Section.fields]

theorem close_entries (settings : List Setting) :
    Tables.close (Section.entries settings) = settings.map fun t => (t.name, t.value) := by
  induction settings with
  | nil => rfl
  | cons t settings ih =>
    show (t.name, t.value) :: Tables.close (Section.entries settings) = _
    rw [ih]
    rfl

theorem close_fields (sections : List Section) : Tables.close (Section.fields sections) =
    sections.map fun s => (s.name, .table (s.settings.map fun t => (t.name, t.value))) := by
  induction sections with
  | nil => rfl
  | cons s sections ih =>
    show (s.name, .table (Tables.close (Section.entries s.settings))) ::
      Tables.close (Section.fields sections) = _
    rw [ih, close_entries]
    rfl

/-- A written document says what its sections say. -/
theorem parse?_sections {sections : List Section} (hvalid : ∀ s ∈ sections, s.Valid)
    (hdistinct : (sections.map Section.name).Nodup) :
    parse? (['\n'].intercalate (sections.map Section.source)) =
      some (sections.map fun s =>
        (s.name, .table (s.settings.map fun t => (t.name, t.value)))) := by
  have hmark : (['\n'].intercalate (sections.map Section.source)).head? ≠ some byteOrderMark := by
    match sections with
    | [] => decide
    | [s] =>
      rw [List.map_singleton, List.intercalate_singleton]
      rintro ⟨⟩
    | s :: t :: sections =>
      rw [List.map_cons, List.map_cons, List.intercalate_cons_cons]
      rintro ⟨⟩
  have hnone : (Tables.keys [] ++ sections.map Section.name).Nodup := hdistinct
  have hlines := congrArg (Option.map Tables.close) (lines?_sections hvalid hnone [])
  rw [Option.map_map] at hlines
  rw [parse?, if_neg hmark]
  refine hlines.trans ?_
  rw [Option.map_some, List.nil_append, close_fields]

end Sections

end LineShell.Toml
