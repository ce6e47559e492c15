import LineShell.Word

/-!
# Quoting a text

A text between single quotes is read back as it was, whatever it holds, when
each single quote in it is written outside of them. Such words, one blank before
each, are the words of their line.
-/

set_option autoImplicit false

namespace LineShell

def singleQuotedChar (c : Char) : List Char :=
  if c = '\x27' then ['\x27', '\\', '\x27', '\x27'] else [c]

def singleQuoted (s : String) : List Char :=
  '\x27' :: s.toList.flatMap singleQuotedChar ++ ['\x27']

namespace Word

def Ends (rest : List Char) : Prop := ∀ c ∈ rest.head?, isBlank c = true

theorem take_ends {rest : List Char} (h : Ends rest) : take .plain rest = ([], rest) := by
  cases rest with
  | nil => rfl
  | cons c rest =>
    have hblank : isBlank c = true := h c rfl
    have hne : ∀ d : Char, isBlank d = false → c ≠ d := by
      rintro d hd rfl
      rw [hblank] at hd
      cases hd
    rw [take, if_neg (hne _ (by decide)), if_neg (hne _ (by decide)), if_neg (hne _ (by decide)),
      if_pos hblank]

theorem take_singleQuotedChars (cs rest : List Char) :
    take .single (cs.flatMap singleQuotedChar ++ '\x27' :: rest) =
      (cs ++ (take .plain rest).1, (take .plain rest).2) := by
  induction cs with
  | nil => rfl
  | cons c cs ih =>
    rw [List.flatMap_cons, List.append_assoc]
    by_cases hc : c = '\x27'
    · subst hc
      have htake (text : List Char) : take .single (singleQuotedChar '\x27' ++ text) =
          ('\x27' :: (take .single text).1, (take .single text).2) := rfl
      rw [htake, ih]
      rfl
    · rw [singleQuotedChar, if_neg hc, List.singleton_append, take, if_neg hc, ih]
      rfl

theorem take_singleQuoted (s : String) {rest : List Char} (h : Ends rest) :
    take .plain (singleQuoted s ++ rest) = (s.toList, rest) := by
  rw [singleQuoted, List.append_assoc, List.cons_append, List.singleton_append]
  show take .single (s.toList.flatMap singleQuotedChar ++ '\x27' :: rest) = _
  rw [take_singleQuotedChars, take_ends h, List.append_nil]

/-! ## Words of a line -/

section Reading

variable {waiting : Option String} {c : Char} {cs rest : List Char}

theorem read_word (hcs : cs.dropWhile isBlank = c :: rest)
    (hop : (if waiting.isNone then operator? (c :: rest) else none) = none) :
    read waiting cs =
      ofText waiting (String.ofList (take .plain (c :: rest)).1) ::
        read none (take .plain (c :: rest)).2 := by
  rw [read]
  split
  · rename_i hnil
    rw [hcs] at hnil
    cases hnil
  rename_i d tail hitem
  rw [hcs] at hitem
  cases hitem
  split
  · rename_i hsome
    rw [hop] at hsome
    cases hsome
  · rfl

theorem read_operator {op after : List Char} (hcs : cs.dropWhile isBlank = c :: rest)
    (hop : operator? (c :: rest) = some (op, after)) :
    read none cs = read (some (String.ofList op)) after := by
  rw [read]
  split
  · rename_i hnil
    rw [hcs] at hnil
    cases hnil
  rename_i d tail hitem
  rw [hcs] at hitem
  cases hitem
  split
  · rename_i found left hsome
    simp only [Option.isNone_none, if_true, hop] at hsome
    cases hsome
    rfl
  · rename_i hnone
    simp only [Option.isNone_none, if_true, hop] at hnone
    cases hnone

theorem read_ended (waiting : Option String) (h : cs.dropWhile isBlank = []) :
    read waiting cs = (waiting.map fun op => redirect op (.ofOperator op) "").toList := by
  rw [read]
  split
  · rfl
  · rename_i hitem
    rw [h] at hitem
    cases hitem

end Reading

theorem operator?_eq_none {cs : List Char} (hfirst : cs.head? ≠ some '>')
    (hsecond : ∀ d ∈ cs.head?, d = '0' ∨ d = '1' ∨ d = '2' → cs.tail.head? ≠ some '>') :
    operator? cs = none := by
  have harrows (cs : List Char) (h : cs.head? ≠ some '>') : cs.takeWhile (· = '>') = [] := by
    cases cs with
    | nil => rfl
    | cons c rest =>
      have hc : ¬ c = '>' := by simpa using h
      simp [hc]
  have hnone : (cs.drop ((cs.take 1).filter fun c => c = '0' || c = '1' || c = '2').length).takeWhile
      (· = '>') = [] := by
    cases cs with
    | nil => rfl
    | cons d rest =>
      by_cases hdigit : d = '0' ∨ d = '1' ∨ d = '2'
      · have hone : [d].filter (fun c => c = '0' || c = '1' || c = '2') = [d] := by
          simpa [or_assoc] using hdigit
        rw [List.take_succ_cons, List.take_zero, hone]
        exact harrows rest (hsecond d rfl hdigit)
      · have hzero : [d].filter (fun c => c = '0' || c = '1' || c = '2') = [] := by
          simpa [or_assoc] using hdigit
        rw [List.take_succ_cons, List.take_zero, hzero]
        exact harrows (d :: rest) hfirst
  simp only [operator?, hnone]
  rfl

/-- A text that is read as one word and not as an operator, whatever line goes on after it. -/
structure Written (text : List Char) (word : String) : Prop where
  starts : ∃ c rest, text = c :: rest ∧ isBlank c = false
  noOperator : ∀ rest, Ends rest → operator? (text ++ rest) = none
  taken : ∀ rest, Ends rest → take .plain (text ++ rest) = (word.toList, rest)

theorem Written.read {text : List Char} {word : String} (h : Written text word)
    (waiting : Option String) {gap rest : List Char} (hgap : ∀ c ∈ gap, isBlank c = true)
    (hrest : Ends rest) :
    read waiting (gap ++ text ++ rest) = ofText waiting word :: read none rest := by
  obtain ⟨c, tail, htext, hc⟩ := h.starts
  have hcs : (gap ++ text ++ rest).dropWhile isBlank = c :: (tail ++ rest) := by
    rw [htext, List.append_assoc, List.dropWhile_append_of_pos hgap, List.cons_append,
      List.dropWhile_cons_of_neg (by simp [hc])]
  have htaken := h.taken rest hrest
  have hop : (if waiting.isNone then operator? (c :: (tail ++ rest)) else none) = none := by
    rw [← List.cons_append, ← htext, h.noOperator rest hrest, ite_self]
  rw [htext, List.cons_append] at htaken
  rw [read_word hcs hop, htaken, String.ofList_toList]

theorem ends_written {written : String → List Char} (args : List String) {rest : List Char}
    (hrest : Ends rest) : Ends (args.flatMap (fun a => ' ' :: written a) ++ rest) := by
  cases args with
  | nil => exact hrest
  | cons a args =>
    rintro c ⟨⟩
    rfl

theorem read_written {written : String → List Char} {args : List String}
    (h : ∀ a ∈ args, Written (written a) a) {rest : List Char} (hrest : Ends rest) :
    read none (args.flatMap (fun a => ' ' :: written a) ++ rest) =
      args.map arg ++ read none rest := by
  induction args with
  | nil => rfl
  | cons a args ih =>
    have hblank : ∀ c ∈ [' '], isBlank c = true := List.forall_mem_singleton.mpr (by decide)
    rw [List.flatMap_cons, List.append_assoc]
    refine ((h a (by simp)).read none hblank (ends_written args hrest)).trans ?_
    rw [ih fun b hb => h b (by simp [hb])]
    rfl

theorem read_command {text : List Char} {name : String} (hname : Written text name)
    {written : String → List Char} {args : List String} (h : ∀ a ∈ args, Written (written a) a)
    {rest : List Char} (hrest : Ends rest) :
    read none (text ++ args.flatMap (fun a => ' ' :: written a) ++ rest) =
      arg name :: args.map arg ++ read none rest := by
  have hnoGap : ∀ c ∈ ([] : List Char), isBlank c = true := by simp
  rw [List.append_assoc]
  refine (hname.read none hnoGap (ends_written args hrest)).trans ?_
  rw [read_written h hrest]
  rfl

theorem singleQuoted_written (s : String) : Written (singleQuoted s) s where
  starts := ⟨'\x27', _, rfl, by decide⟩
  noOperator _ _ := rfl
  taken _ := take_singleQuoted s

/-! ## Words without quotes -/

structure Literal (c : Char) : Prop where
  notBlank : isBlank c = false
  notEscape : c ≠ '\\'
  notSingle : c ≠ '\x27'
  notDouble : c ≠ '"'

theorem literal_iff {c : Char} :
    Literal c ↔ isBlank c = false ∧ c ≠ '\\' ∧ c ≠ '\x27' ∧ c ≠ '"' :=
  ⟨fun h => ⟨h.notBlank, h.notEscape, h.notSingle, h.notDouble⟩,
    fun ⟨hblank, hescape, hsingle, hdouble⟩ => ⟨hblank, hescape, hsingle, hdouble⟩⟩

instance (c : Char) : Decidable (Literal c) := decidable_of_iff _ literal_iff.symm

theorem take_literals {cs : List Char} (h : ∀ c ∈ cs, Literal c) (rest : List Char) :
    take .plain (cs ++ rest) = (cs ++ (take .plain rest).1, (take .plain rest).2) := by
  induction cs with
  | nil => rfl
  | cons c cs ih =>
    have hc := h c (by simp)
    rw [List.cons_append, take, if_neg hc.notEscape, if_neg hc.notSingle, if_neg hc.notDouble,
      if_neg (by simp [hc.notBlank]), ih fun d hd => h d (by simp [hd])]
    rfl

/-- A word of such characters is its own written form, unless an arrow makes it an operator. -/
theorem literals_written {word : String} (hne : word ≠ "")
    (h : ∀ c ∈ word.toList, Literal c ∧ c ≠ '>') : Written word.toList word := by
  obtain ⟨c, cs, hword⟩ := List.exists_cons_of_ne_nil (mt String.toList_eq_nil_iff.mp hne)
  have harrow (c : Char) (hc : c ∈ word.toList) : some c ≠ some '>' := by
    simpa using (h c hc).2
  refine ⟨⟨c, cs, hword, (h c (by simp [hword])).1.notBlank⟩, fun rest hrest => ?_,
    fun rest hrest => ?_⟩
  · rw [hword]
    refine operator?_eq_none (harrow c (by simp [hword])) fun _ _ _ => ?_
    cases cs with
    | nil =>
      intro hhead
      exact absurd (hrest '>' hhead) (by decide)
    | cons d cs => exact harrow d (by simp [hword])
  · rw [take_literals fun c hc => (h c hc).1, take_ends hrest, List.append_nil]

end Word

end LineShell
