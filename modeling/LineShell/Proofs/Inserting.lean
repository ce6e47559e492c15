import LineShell.Command
import LineShell.Proofs.Grammar
import LineShell.Proofs.Matching
import LineShell.Proofs.Quoting
import LineShell.Proofs.Typing

/-!
# Names that TAB brings in

TAB completes the command with the name as it is and a blank after it. Read as a
line, this is the command of that name just when nothing in the name has a
meaning of its own: a blank cuts it, a quote or a backslash goes away, and an
operator takes what comes after it.
-/

set_option autoImplicit false

namespace LineShell

namespace Word
open Grammar

/-! ## What is read comes from the line -/

theorem take_sublist (q : Quoting) (cs : List Char) :
    ((take q cs).1 ++ (take q cs).2).Sublist cs := by
  fun_induction take q cs with
  | case1 => exact .slnil
  | case2 c rest text after htake ih | case4 c rest _ text after htake ih
  | case6 c rest _ text after htake ih | case8 c rest _ _ text after htake ih
  | case13 c rest _ _ _ _ text after htake ih =>
    rw [htake] at ih
    exact ih.cons_cons _
  | case5 c rest _ text after htake ih =>
    rw [htake] at ih
    exact (ih.cons_cons c).cons _
  | case3 rest ih | case7 rest _ ih | case9 rest ih | case10 rest _ ih | case11 rest _ _ ih =>
    exact ih.cons _
  | case12 => exact List.Sublist.refl _

theorem arg_sublist {waiting : Option String} {cs : List Char} {text : String}
    (h : .arg text ∈ read waiting cs) : text.toList.Sublist cs := by
  fun_induction read waiting cs with
  | case1 waiting cs =>
    cases waiting with
    | none => simp at h
    | some op => simp at h
  | case2 waiting cs c rest hitem op after hop ih =>
    have hcs : (c :: rest).Sublist cs := hitem ▸ List.dropWhile_sublist _
    split at hop
    · obtain ⟨-, -, hsplit⟩ := operator?_eq_some_iff.mp hop
      rw [hsplit] at hcs
      exact (ih h).trans ((List.sublist_append_right _ _).trans hcs)
    · cases hop
  | case3 waiting cs c rest hitem _ word ih =>
    have hcs : (c :: rest).Sublist cs := hitem ▸ List.dropWhile_sublist _
    have hword : (word.1 ++ word.2).Sublist cs := (take_sublist .plain (c :: rest)).trans hcs
    rcases List.mem_cons.mp h with hfirst | hothers
    · have htext : String.ofList word.1 = text := by
        cases waiting with
        | none => simpa [ofText] using hfirst.symm
        | some op => simp [ofText] at hfirst
      rw [← htext, String.toList_ofList]
      exact (List.sublist_append_left _ _).trans hword
    · exact (ih hothers).trans ((List.sublist_append_right _ _).trans hword)

theorem not_sublist_blank {c : Char} (hc : c ≠ ' ') (cs : List Char) :
    ¬ (c :: cs).Sublist (cs ++ [' ']) := by
  intro h
  have hcount := h.count_le c
  rw [List.count_cons_self, List.count_append, List.count_singleton, if_neg (by simpa using hc.symm)]
    at hcount
  omega

theorem ends_blank : Ends [' '] := by
  rintro c ⟨⟩
  decide

/-- A quote or a backslash of a text is missing in the word that it is read as, and
a blank ends that word. -/
theorem take_blank_iff {cs : List Char} :
    (take .plain (cs ++ [' '])).1 = cs ↔ ∀ c ∈ cs, Literal c := by
  constructor
  · intro h
    induction cs with
    | nil => simp
    | cons c cs ih =>
      -- whatever goes on after a character that is dropped, one character is missing
      have hrest (q : Quoting) (hc : c ≠ ' ') : (take q (cs ++ [' '])).1 ≠ c :: cs := by
        intro htake
        refine not_sublist_blank hc cs (htake ▸ ?_)
        exact (List.sublist_append_left _ _).trans (take_sublist q (cs ++ [' ']))
      rw [List.cons_append, take] at h
      split at h
      · rename_i hc
        exact absurd h (hrest .escaped (by rw [hc]; decide))
      split at h
      · rename_i hc
        exact absurd h (hrest .single (by rw [hc]; decide))
      split at h
      · rename_i hc
        exact absurd h (hrest .double (by rw [hc]; decide))
      split at h
      · cases h
      · rename_i hescape hsingle hdouble hblank
        have hliteral : Literal c := ⟨by simpa using hblank, hescape, hsingle, hdouble⟩
        have htail : (take .plain (cs ++ [' '])).1 = cs := (List.cons.inj h).2
        exact List.forall_mem_cons.mpr ⟨hliteral, ih htail⟩
  · intro h
    rw [take_literals h, take_ends ends_blank, List.append_nil]

theorem beginsOperator_blank_iff {cs : List Char} (h : ∀ c ∈ cs, Literal c) :
    BeginsOperator (cs ++ [' ']) ↔ IsOperator cs := by
  constructor
  · rintro ⟨text, after, htext, hblank, hsplit⟩
    obtain ⟨c, rest, hc, rfl⟩ := hblank.cons
    rcases List.append_eq_append_iff.mp hsplit with ⟨gap, rfl, hgap⟩ | ⟨gap, rfl, hgap⟩
    · cases gap with
      | nil => rwa [List.append_nil] at htext
      | cons d gap => simp at hgap
    · cases gap with
      | nil => rwa [List.append_nil]
      | cons d gap =>
        cases hgap
        have hd := (h c (by simp)).notBlank
        rw [hc] at hd
        cases hd
  · intro hop
    exact ⟨cs, [' '], hop, by simp [BeginsBlank]; decide, rfl⟩

theorem dropWhile_name {name : String} {c : Char} {tail : List Char} (hname : name.toList = c :: tail)
    (hc : Literal c) : (name ++ " ").toList.dropWhile isBlank = c :: (tail ++ [' ']) := by
  have hline : (name ++ " ").toList = c :: (tail ++ [' ']) := by simp [hname]
  rw [hline, List.dropWhile_cons_of_neg (by simp [hc.notBlank])]

theorem splitWords_literal {name : String} (hne : name ≠ "") (h : ∀ c ∈ name.toList, Literal c)
    (hop : ¬ IsOperator name.toList) : splitWords (name ++ " ") = [.arg name] := by
  obtain ⟨c, tail, hname⟩ := List.exists_cons_of_ne_nil (mt String.toList_eq_nil_iff.mp hne)
  have htake : take .plain (name.toList ++ [' ']) = (name.toList, [' ']) := by
    rw [take_literals h, take_ends ends_blank, List.append_nil]
  have hnone := operator?_eq_none_iff.mpr (mt (beginsOperator_blank_iff h).mp hop)
  rw [hname, List.cons_append] at htake hnone
  have hfirst := dropWhile_name hname (h c (by simp [hname]))
  have hended : [' '].dropWhile isBlank = [] := by decide
  rw [splitWords, read_word hfirst (by simpa using hnone), htake, ← hname, String.ofList_toList,
    read_ended none hended]
  rfl

theorem literal_of_mem_splitWords {name : String} {c : Char} {tail : List Char}
    (hname : name.toList = c :: tail) (hc : Literal c)
    (h : .arg name ∈ splitWords (name ++ " ")) :
    (∀ c ∈ name.toList, Literal c) ∧ ¬ IsOperator name.toList := by
  have hblank : c ≠ ' ' := by
    rintro rfl
    exact absurd hc.notBlank (by decide)
  have hrest {rest : List Char} {waiting : Option String} (hrest : rest.Sublist (tail ++ [' '])) :
      .arg name ∉ read waiting rest := by
    intro hmem
    exact not_sublist_blank hblank tail (hname ▸ (arg_sublist hmem).trans hrest)
  have hfirst := dropWhile_name hname hc
  rw [splitWords] at h
  cases hop : operator? (c :: (tail ++ [' '])) with
  | some found =>
    obtain ⟨op, after⟩ := found
    obtain ⟨hoperator, -, hsplit⟩ := operator?_eq_some_iff.mp hop
    obtain ⟨d, op, rfl⟩ := List.exists_cons_of_ne_nil hoperator.ne_nil
    have hafter : after.Sublist (tail ++ [' ']) := by
      rw [(List.cons.inj hsplit).2]
      exact List.sublist_append_right _ _
    rw [read_operator hfirst hop] at h
    exact absurd h (hrest hafter)
  | none =>
    have hafter : (take .plain (tail ++ [' '])).2.Sublist (tail ++ [' ']) :=
      (List.sublist_append_right _ _).trans (take_sublist .plain _)
    have htake := take_literals (List.forall_mem_singleton.mpr hc) (tail ++ [' '])
    rw [List.singleton_append] at htake
    rw [read_word hfirst (by simpa using hop), htake] at h
    rcases List.mem_cons.mp h with hword | hothers
    · have hall : (take .plain (name.toList ++ [' '])).1 = name.toList := by
        rw [hname, List.cons_append, htake]
        simpa [ofText, hname] using congrArg String.toList (Word.arg.inj hword).symm
      refine ⟨take_blank_iff.mp hall, fun hoperator => ?_⟩
      refine operator?_eq_none_iff.mp hop ⟨name.toList, [' '], hoperator, ?_, by rw [hname]; rfl⟩
      simp [BeginsBlank]
      decide
    · exact absurd hothers (hrest hafter)

end Word

namespace Resolved
open Grammar

variable {σ : Type} {resolve : Redirect.Resolver σ}

theorem step_texts {r : Resolved σ} {w : Word} {text : String}
    (h : text ∈ (step resolve r w).texts) : text ∈ r.texts ∨ w = .arg text := by
  cases w with
  | arg other =>
    rcases List.mem_append.mp h with hbefore | hnew
    · exact .inl hbefore
    · exact .inr (by rw [List.mem_singleton.mp hnew])
  | redirect operator kind target =>
    refine .inl ?_
    unfold step at h
    dsimp only at h
    split at h
    · exact h
    · split at h <;> exact h

theorem mem_texts {words : List Word} {r : Resolved σ} {text : String}
    (h : text ∈ (words.foldl (step resolve) r).texts) : text ∈ r.texts ∨ .arg text ∈ words := by
  induction words generalizing r with
  | nil => exact .inl h
  | cons w words ih =>
    rcases ih h with hstep | hothers
    · rcases step_texts hstep with hbefore | rfl
      · exact .inl hbefore
      · exact .inr (by simp)
    · exact .inr (List.mem_cons_of_mem _ hothers)

/-- The command of a name and a blank is that name alone, just when the name is
written as it is meant. -/
theorem command?_name_iff (resolve : Redirect.Resolver σ) (s : σ) {name : String} {c : Char}
    {tail : List Char} (hname : name.toList = c :: tail) (hc : Word.Literal c) :
    (ofLine resolve s (name ++ " ")).command? = some ⟨name, [], .empty⟩ ↔
      (∀ c ∈ name.toList, Word.Literal c) ∧ ¬ IsOperator name.toList := by
  constructor
  · intro h
    have hmem : name ∈ (ofLine resolve s (name ++ " ")).texts := by
      unfold command? at h
      split at h
      · cases h
      · rename_i first args htexts
        rw [htexts, show first = name from congrArg Command.name (Option.some.inj h)]
        exact List.mem_cons_self
    rcases mem_texts hmem with hstart | hword
    · simp [start] at hstart
    · exact Word.literal_of_mem_splitWords hname hc hword
  · rintro ⟨hliteral, hop⟩
    have hne : name ≠ "" := by
      rintro rfl
      cases hname
    rw [ofLine, Word.splitWords_literal hne hliteral hop]
    rfl

end Resolved

namespace Completion

theorem unique_begins {typed name : String} {candidates : List String}
    (h : complete typed candidates = .unique name) : typed.toList <+: name.toList := by
  have hfits := complete_fits typed candidates
  rw [h] at hfits
  have hname : name ∈ namesFor typed candidates := hfits ▸ rfl
  exact hname.2

end Completion

namespace Line

theorem respond_tab_unique {setup : Setup} (hcompleting : setup.completing = true)
    {typed name : String} (hne : typed ≠ "") (htyped : ∀ c ∈ typed.toList, isBlank c = false)
    (hcomplete : Completion.complete typed (setup.candidates typed) = .unique name) :
    ∃ next echo notices, (Typing.lineOf typed.toList).respond setup .tab = .edit next echo notices ∧
      next.text = name.toList ++ [' '] ∧ next.escaped = false := by
  have hword : (Typing.lineOf typed.toList).currentWord = typed.toList := by
    have hall : typed.toList.reverse.takeWhile (fun c => !isBlank c) = typed.toList.reverse := by
      simpa using htyped
    rw [currentWord, Typing.lineOf, hall, List.reverse_reverse]
  have htab : (Typing.lineOf typed.toList).respond setup .tab =
      complete setup (Typing.lineOf typed.toList) := if_pos hcompleting
  obtain ⟨rest, hrest⟩ := Completion.unique_begins hcomplete
  rw [htab, complete, hword, String.ofList_toList, if_neg (by simpa using hne)]
  dsimp only
  rw [hcomplete]
  dsimp only
  rw [← hrest, List.drop_left]
  refine ⟨_, _, _, rfl, by simp [append, Typing.lineOf, Line.text], ?_⟩
  simp [append, endsEscaped]

end Line

namespace Console

variable {σ : Type} [Sink σ] {P : Bytes → σ → Prop}

theorem readFrom_chars (setup : Setup) (hP : Sink.Takes P) {cs : List Char}
    (hcs : ∀ c ∈ cs, 0x20 ≤ c.toNat ∧ c.toNat ≠ 0x7f) (buffer : List Char) {written : Bytes}
    {sink : σ} (hsink : P written sink) (rest : List Event) (notices : List Notice) :
    ∃ after, P (written ++ Utf8.encode cs) after ∧
      readFrom setup (Typing.lineOf buffer)
          ⟨Keystroke.events (Utf8.encode cs) ++ rest, sink, notices⟩ =
        readFrom setup (Typing.lineOf (buffer ++ cs)) ⟨rest, after, notices⟩ := by
  induction cs generalizing buffer written sink with
  | nil => exact ⟨sink, by simpa [Utf8.encode] using hsink, by simp [Utf8.encode]⟩
  | cons c cs ih =>
    have hbytes : Utf8.encode (c :: cs) = Utf8.encode [c] ++ Utf8.encode cs :=
      Utf8.encode_append [c] cs
    have hnext := Keystroke.next_char (hcs c (by simp)) (Keystroke.events (Utf8.encode cs) ++ rest)
    have hevents : Keystroke.events (Utf8.encode [c]) ++
        (Keystroke.events (Utf8.encode cs) ++ rest) ≠ [] :=
      List.append_ne_nil_of_left_ne_nil (mt List.map_eq_nil_iff.mp (Keystroke.char c).bytes_ne_nil) _
    have hrespond : (Typing.lineOf buffer).respond setup (.typed [c]) =
        .edit (Typing.lineOf (buffer ++ [c])) [[c]] [] := by
      rw [Line.respond, Typing.type_lineOf]
    obtain ⟨middle, hmiddle, hread⟩ := readFrom_edit hP hsink hnext hevents hrespond notices
    obtain ⟨after, hafter, hothers⟩ :=
      ih (fun d hd => hcs d (List.mem_cons_of_mem _ hd)) (buffer ++ [c]) hmiddle
    refine ⟨after, by simpa [hbytes] using hafter, ?_⟩
    rw [hbytes, Keystroke.events_append, List.append_assoc, hread, List.append_nil, hothers,
      List.append_assoc, List.singleton_append]

theorem readLine_unique {setup : Setup} (hcompleting : setup.completing = true)
    {typed name : String} (hne : typed ≠ "")
    (htyped : ∀ c ∈ typed.toList, isBlank c = false ∧ 0x20 ≤ c.toNat ∧ c.toNat ≠ 0x7f)
    (hcomplete : Completion.complete typed (setup.candidates typed) = .unique name) :
    (readLine setup ⟨Keystroke.events (Utf8.ofString typed ++ [Key.horizontalTab,
      Key.carriageReturn]), Recorder.unlimited, []⟩).1 = .ok (name ++ " ") := by
  obtain ⟨next, echo, notices, hrespond, htext, hescaped⟩ := Line.respond_tab_unique hcompleting
    hne (fun c hc => (htyped c hc).1) hcomplete
  have htab : Key.next (Keystroke.events [Key.horizontalTab, Key.carriageReturn]) =
      (.ok .tab, Keystroke.events [Key.carriageReturn]) := rfl
  have henter : Key.next (Keystroke.events [Key.carriageReturn]) = (.ok .enter, []) := rfl
  have hfinish : next.respond setup .enter = .finish (.ok (name ++ " ")) := by
    rw [Line.respond, if_neg (by simp [hescaped]), htext]
    simp
  obtain ⟨first, hfirst, hread⟩ := readFrom_chars setup Recorder.takes
    (fun c hc => (htyped c hc).2) [] Recorder.unlimited_holds
    (Keystroke.events [Key.horizontalTab, Key.carriageReturn]) []
  obtain ⟨second, -, hread'⟩ := readFrom_edit Recorder.takes hfirst htab (by simp) hrespond []
  rw [Keystroke.events_append]
  exact congrArg Prod.fst (hread.trans (hread'.trans
    (readFrom_finish henter (by simp) hfinish _)))

/-- A name that TAB has completed is the line, a blank after it. Read as a line, it
is the command of that name just when its characters stand for themselves and it
is no operator. -/
theorem readLine_completed {setup : Setup} (hcompleting : setup.completing = true)
    {typed name : String} (hne : typed ≠ "")
    (htyped : ∀ c ∈ typed.toList, Word.Literal c ∧ 0x20 ≤ c.toNat ∧ c.toNat ≠ 0x7f)
    (hcomplete : Completion.complete typed (setup.candidates typed) = .unique name) :
    (readLine setup ⟨Keystroke.events (Utf8.ofString typed ++ [Key.horizontalTab,
      Key.carriageReturn]), Recorder.unlimited, []⟩).1 = .ok (name ++ " ") ∧
    ∀ {τ : Type} (resolve : Redirect.Resolver τ) (s : τ),
      (Resolved.ofLine resolve s (name ++ " ")).command? = some ⟨name, [], .empty⟩ ↔
        (∀ c ∈ name.toList, Word.Literal c) ∧ ¬ Grammar.IsOperator name.toList := by
  refine ⟨readLine_unique hcompleting hne
    (fun c hc => ⟨(htyped c hc).1.notBlank, (htyped c hc).2⟩) hcomplete, fun resolve s => ?_⟩
  obtain ⟨rest, hrest⟩ := Completion.unique_begins hcomplete
  obtain ⟨c, tail, htail⟩ := List.exists_cons_of_ne_nil (mt String.toList_eq_nil_iff.mp hne)
  have hname : name.toList = c :: (tail ++ rest) := by rw [← hrest, htail, List.cons_append]
  exact Resolved.command?_name_iff resolve s hname (htyped c (by simp [htail])).1

theorem readLine_completed_plain :
    let setup : Setup := ⟨"$ ", fun _ => ["exit", "echo"], true⟩
    let resolve : Redirect.Resolver Unit := fun _ _ s => ⟨.error (.missingTarget ""), s, []⟩
    setup.completing = true ∧ "ec" ≠ "" ∧
      (∀ c ∈ "ec".toList, Word.Literal c ∧ 0x20 ≤ c.toNat ∧ c.toNat ≠ 0x7f) ∧
      Completion.complete "ec" (setup.candidates "ec") = .unique "echo" ∧
      (readLine setup ⟨Keystroke.events (Utf8.ofString "ec" ++ [Key.horizontalTab,
        Key.carriageReturn]), Recorder.unlimited, []⟩).1 = .ok "echo " ∧
      (Resolved.ofLine resolve () "echo ").command? = some ⟨"echo", [], .empty⟩ := by
  intro setup resolve
  have htyped : ∀ c ∈ "ec".toList, Word.Literal c ∧ 0x20 ≤ c.toNat ∧ c.toNat ≠ 0x7f :=
    List.forall_iff_forall_mem.mp (by decide)
  have hcomplete : Completion.complete "ec" (setup.candidates "ec") = .unique "echo" := by
    decide +kernel
  have hne : "ec" ≠ "" := by decide
  obtain ⟨hline, hcommand⟩ := readLine_completed rfl hne htyped hcomplete
  have hliteral : ∀ c ∈ "echo".toList, Word.Literal c := List.forall_iff_forall_mem.mp (by decide)
  have hoperator : ¬ Grammar.IsOperator "echo".toList := by
    rw [← Word.beginsOperator_blank_iff hliteral, ← Grammar.operator?_eq_none_iff]
    decide
  exact ⟨rfl, hne, htyped, hcomplete, hline, (hcommand resolve ()).mpr ⟨hliteral, hoperator⟩⟩

/-- A name with a blank in it is read as two words: it is another command that runs. -/
theorem readLine_completed_blank :
    let setup : Setup := ⟨"$ ", fun _ => ["my tool"], true⟩
    (∀ c ∈ "my".toList, Word.Literal c ∧ 0x20 ≤ c.toNat ∧ c.toNat ≠ 0x7f) ∧
      Completion.complete "my" (setup.candidates "my") = .unique "my tool" ∧
      (readLine setup ⟨Keystroke.events (Utf8.ofString "my" ++ [Key.horizontalTab,
        Key.carriageReturn]), Recorder.unlimited, []⟩).1 = .ok "my tool " ∧
      ∀ {τ : Type} (resolve : Redirect.Resolver τ) (s : τ),
        (Resolved.ofLine resolve s "my tool ").command? = some ⟨"my", ["tool"], .empty⟩ ∧
        (Resolved.ofLine resolve s "my tool ").command? ≠ some ⟨"my tool", [], .empty⟩ := by
  intro setup
  have hcomplete : Completion.complete "my" (setup.candidates "my") = .unique "my tool" := by
    decide +kernel
  have htyped : ∀ c ∈ "my".toList, Word.Literal c ∧ 0x20 ≤ c.toNat ∧ c.toNat ≠ 0x7f :=
    List.forall_iff_forall_mem.mp (by decide)
  have hline := readLine_unique rfl (by decide)
    (fun c hc => ⟨(htyped c hc).1.notBlank, (htyped c hc).2⟩) hcomplete
  have hwords : splitWords "my tool " = [.arg "my", .arg "tool"] := by
    have hname : Word.Written "my".toList "my" :=
      Word.literals_written (by decide) (List.forall_iff_forall_mem.mp (by decide))
    have hargs : ∀ a ∈ ["tool"], Word.Written a.toList a :=
      List.forall_mem_singleton.mpr
        (Word.literals_written (by decide) (List.forall_iff_forall_mem.mp (by decide)))
    have hended : [' '].dropWhile isBlank = [] := by decide
    have hread := Word.read_command hname hargs Word.ends_blank
    rwa [Word.read_ended none hended] at hread
  refine ⟨htyped, hcomplete, hline, fun resolve s => ?_⟩
  have hcommand : (Resolved.ofLine resolve s "my tool ").command? =
      some ⟨"my", ["tool"], .empty⟩ := by
    rw [Resolved.ofLine, hwords]
    rfl
  refine ⟨hcommand, fun h => ?_⟩
  rw [hcommand] at h
  exact absurd (congrArg Command.name (Option.some.inj h)) (by decide)

end Console

end LineShell
