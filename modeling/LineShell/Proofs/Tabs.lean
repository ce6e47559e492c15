import LineShell.Proofs.LineFeeds
import LineShell.Proofs.Matching
import Mathlib.Data.List.TakeWhile

/-!
# What TAB does

Wherever a reading has come to, TAB acts on the word before the cursor and on the
names that begin with it. Only the rest of such a name, or of what all of them
have in common, comes into the line, and it is what is echoed; else the line
stays, and either the names are listed, on a second TAB in a row, or the bell
rings.
-/

set_option autoImplicit false

namespace LineShell

namespace Line
open Completion (namesFor IsCommon Fits)

structure EndsIn (text head word : List Char) : Prop where
  text : text = head ++ word
  unbroken : ∀ c ∈ word, isBlank c = false
  blank : ∀ c ∈ head.getLast?, isBlank c = true

/-- There is something to add: one name that begins with the word, or a longer
text that several of them begin with. -/
def Grows (word : List Char) (names : Set String) : Prop :=
  word ≠ [] ∧ ((∃ name, names = {name}) ∨
    names.Nontrivial ∧ ∃ common, IsCommon names common ∧ word.length < common.toList.length)

def Lists (word : List Char) (names : Set String) (again : Prop) : Prop :=
  word ≠ [] ∧ names.Nontrivial ∧ again

/-- What TAB makes of a text that ends in a word, with the names that begin with
the word, and what it echoes. -/
structure Tabbed (prompt : String) (head word : List Char) (names : Set String) (again : Prop)
    (text echo : List Char) : Prop where
  completes : word ≠ [] → ∀ name, names = {name} → ∃ rest,
    name.toList = word ++ rest ∧ text = head ++ name.toList ++ [' '] ∧ echo = rest ++ [' ']
  prolongs : word ≠ [] → names.Nontrivial → ∀ common, IsCommon names common →
    word.length < common.toList.length → ∃ rest,
      common.toList = word ++ rest ∧ text = head ++ common.toList ∧ echo = rest
  stays : ¬ Grows word names → text = head ++ word
  lists : ¬ Grows word names → Lists word names again → ∃ listed : List String,
    listed.Pairwise (fun a b => Utf8.ofString a < Utf8.ofString b) ∧
      (∀ name, name ∈ listed ↔ name ∈ names) ∧
      echo = newline ++ ("  ".intercalate listed).toList ++ newline ++ prompt.toList ++ text
  rings : ¬ Grows word names → ¬ Lists word names again → echo = bell

theorem endsIn_currentWord (l : Line) : ∃ head, EndsIn l.text head l.currentWord := by
  refine ⟨(l.before.dropWhile fun c => !isBlank c).reverse, ⟨?_, fun c hc => ?_, fun c hc => ?_⟩⟩
  · rw [currentWord, ← List.reverse_append, List.takeWhile_append_dropWhile]
    rfl
  · simpa using List.mem_takeWhile_imp (List.mem_reverse.mp hc)
  · rw [List.getLast?_reverse] at hc
    have hfirst := List.head?_dropWhile_not (fun c => !isBlank c) l.before
    rw [hc] at hfirst
    simpa using hfirst

theorem append_text (l : Line) (text : List Char) : (l.append text).text = l.text ++ text := by
  simp [append, Line.text]

section Outcomes

variable {prompt : String} {head word : List Char} {names : Set String} {again : Prop}

theorem not_grows_of_empty (h : word = []) : ¬ Grows word names := fun hgrows => hgrows.1 h

theorem not_grows_of_isCommon (hnames : names.Nontrivial)
    (h : IsCommon names (String.ofList word)) : ¬ Grows word names := by
  rintro ⟨-, ⟨name, hname⟩ | ⟨-, common, hcommon, hlonger⟩⟩
  · exact hnames.ne_singleton hname
  · rw [← h.unique hnames.nonempty hcommon, String.toList_ofList] at hlonger
    exact Nat.lt_irrefl _ hlonger

theorem Tabbed.bell (hgrows : ¬ Grows word names) (hlists : ¬ Lists word names again) :
    Tabbed prompt head word names again (head ++ word) bell where
  completes hword name hname := absurd ⟨hword, .inl ⟨name, hname⟩⟩ hgrows
  prolongs hword hmany common hcommon hlonger :=
    absurd ⟨hword, .inr ⟨hmany, common, hcommon, hlonger⟩⟩ hgrows
  stays _ := rfl
  lists _ h := absurd h hlists
  rings _ _ := rfl

theorem Tabbed.single {name : String} {rest : List Char} (hword : word ≠ [])
    (hnames : names = {name}) (hrest : word ++ rest = name.toList) :
    Tabbed prompt head word names again (head ++ word ++ (rest ++ [' '])) (rest ++ [' ']) := by
  have hgrows : Grows word names := ⟨hword, .inl ⟨name, hnames⟩⟩
  refine ⟨fun _ other hother => ?_, fun _ hmany => ?_, absurd hgrows, absurd hgrows, absurd hgrows⟩
  · obtain rfl := Set.singleton_injective (hnames.symm.trans hother)
    exact ⟨rest, hrest.symm, by simp [← hrest], rfl⟩
  · exact absurd hnames hmany.ne_singleton

theorem Tabbed.shared {text : String} {rest : List Char} (hword : word ≠ [])
    (hmany : names.Nontrivial) (hcommon : IsCommon names text)
    (hlonger : word.length < text.toList.length) (hrest : word ++ rest = text.toList) :
    Tabbed prompt head word names again (head ++ word ++ rest) rest := by
  have hgrows : Grows word names := ⟨hword, .inr ⟨hmany, text, hcommon, hlonger⟩⟩
  refine ⟨fun _ name hname => ?_, fun _ _ other hother _ => ?_, absurd hgrows, absurd hgrows,
    absurd hgrows⟩
  · exact absurd hname hmany.ne_singleton
  · obtain rfl := hcommon.unique hmany.nonempty hother
    exact ⟨rest, hrest.symm, by simp [← hrest], rfl⟩

theorem Tabbed.listing {listed : List String} {echo : List Char} (hgrows : ¬ Grows word names)
    (hlists : Lists word names again)
    (hsorted : listed.Pairwise fun a b => Utf8.ofString a < Utf8.ofString b)
    (hmem : ∀ name, name ∈ listed ↔ name ∈ names)
    (hecho : echo = newline ++ ("  ".intercalate listed).toList ++ newline ++ prompt.toList ++
      (head ++ word)) :
    Tabbed prompt head word names again (head ++ word) echo where
  completes hword name hname := absurd ⟨hword, .inl ⟨name, hname⟩⟩ hgrows
  prolongs hword hmany common hcommon hlonger :=
    absurd ⟨hword, .inr ⟨hmany, common, hcommon, hlonger⟩⟩ hgrows
  stays _ := rfl
  lists _ _ := ⟨listed, hsorted, hmem, hecho⟩
  rings _ h := absurd hlists h

end Outcomes

theorem complete_tabbed (setup : Setup) (l : Line) {head : List Char}
    (hends : EndsIn l.text head l.currentWord) :
    let typed := String.ofList l.currentWord
    ∃ next echo notices, complete setup l = .edit next echo notices ∧ next.tabbed = true ∧
      Tabbed setup.prompt head l.currentWord (namesFor typed (setup.candidates typed))
        (l.tabbed = true) next.text echo.flatten := by
  intro typed
  have hfits := Completion.complete_fits typed (setup.candidates typed)
  have hbegins : ∀ name ∈ namesFor typed (setup.candidates typed),
      l.currentWord <+: name.toList := by
    intro name hname
    simpa [typed] using hname.2
  generalize namesFor typed (setup.candidates typed) = names at hfits hbegins ⊢
  have hbell : ¬ Grows l.currentWord names → ¬ Lists l.currentWord names (l.tabbed = true) →
      ∀ notices, ∃ next echo noted,
        Response.edit { l with tabbed := true } [bell] notices = .edit next echo noted ∧
        next.tabbed = true ∧ Tabbed setup.prompt head l.currentWord names (l.tabbed = true)
          next.text echo.flatten := by
    intro hgrows hlists notices
    refine ⟨_, _, _, rfl, rfl, ?_⟩
    show Tabbed _ _ _ _ _ l.text _
    rw [hends.text, List.flatten_singleton]
    exact .bell hgrows hlists
  unfold complete
  by_cases hword : l.currentWord = []
  · rw [if_pos (by simp [hword])]
    exact hbell (not_grows_of_empty hword) (fun h => h.1 hword) _
  rw [if_neg (by simpa using hword)]
  dsimp only
  generalize Completion.complete typed (setup.candidates typed) = outcome at hfits ⊢
  cases outcome with
  | none =>
    have hnames : names = ∅ := hfits
    refine hbell ?_ (fun h => h.2.1.nonempty.ne_empty hnames) _
    rintro ⟨-, ⟨name, hname⟩ | ⟨hmany, -⟩⟩
    · exact Set.singleton_ne_empty name (hname.symm.trans hnames)
    · exact hmany.nonempty.ne_empty hnames
  | unique name =>
    have hnames : names = {name} := hfits
    obtain ⟨rest, hrest⟩ := hbegins name (hnames ▸ rfl)
    refine ⟨_, _, _, rfl, rfl, ?_⟩
    rw [append_text, hends.text, ← hrest, List.drop_left, List.flatten_singleton]
    exact .single hword hnames hrest
  | extension text =>
    obtain ⟨hmany, hcommon, hlonger⟩ := hfits
    obtain ⟨name, hname⟩ := hmany.nonempty
    obtain ⟨rest, hrest⟩ : l.currentWord <+: text.toList :=
      List.prefix_of_prefix_length_le (hbegins name hname) (hcommon.begins name hname)
        (hcommon.longest _ hbegins)
    refine ⟨_, _, _, rfl, rfl, ?_⟩
    rw [append_text, hends.text, ← hrest, List.drop_left, List.flatten_singleton]
    exact .shared hword hmany hcommon (by simpa [typed] using hlonger) hrest
  | ambiguous listed =>
    obtain ⟨hmany, hcommon, hsorted, hmem⟩ := hfits
    have hgrows : ¬ Grows l.currentWord names := not_grows_of_isCommon hmany hcommon
    dsimp only
    by_cases htabbed : l.tabbed
    · rw [if_pos htabbed]
      refine ⟨_, _, _, rfl, htabbed, ?_⟩
      rw [hends.text]
      exact .listing hgrows ⟨hword, hmany, htabbed⟩ hsorted hmem (by simp)
    · rw [if_neg htabbed]
      exact hbell hgrows (fun h => htabbed h.2.2) _

theorem respond_tabbed {setup : Setup} {l next : Line} {key : Key} {echo : List (List Char)}
    {notices : List Notice} (hcompleting : setup.completing = true)
    (h : l.respond setup key = .edit next echo notices) : next.tabbed = true ↔ key = .tab := by
  cases key with
  | tab =>
    obtain ⟨head, hends⟩ := l.endsIn_currentWord
    obtain ⟨after, drawn, noted, hcomplete, htabbed, -⟩ := complete_tabbed setup l hends
    have htab : l.respond setup .tab = complete setup l := if_pos hcompleting
    cases hcomplete.symm.trans (htab.symm.trans h)
    exact iff_of_true htabbed rfl
  | enter =>
    unfold respond at h
    dsimp only at h
    split at h
    · cases h
      simp
    · cases h
  | typed text | erase | idle =>
    cases h
    simp [Line.type]
  | abort reason => cases h

end Line

namespace Console

variable {setup : Setup} {line l : Line} {events : List Event} {key : Key}
  {before after : List (Line × Key)}

theorem course_cons (h : course setup line events = (l, key) :: after) :
    events ≠ [] ∧ l = line ∧ ∃ rest next echo notices, Key.next events = (.ok key, rest) ∧
      line.respond setup key = .edit next echo notices ∧ after = course setup next rest := by
  rw [course] at h
  split at h
  · cases h
  rename_i hne
  split at h
  · cases h
  rename_i found hfound
  split at h
  · cases h
  rename_i next echo notices hrespond
  cases h
  exact ⟨hne, rfl, _, next, echo, notices, Prod.ext hfound rfl, hrespond, rfl⟩

theorem course_tabbed (hcompleting : setup.completing = true) {previous : Option Key}
    (hline : line.tabbed = true ↔ previous = some .tab)
    (h : course setup line events = before ++ (l, key) :: after) :
    l.tabbed = true ↔ (before.getLast?.map Prod.snd).or previous = some .tab := by
  induction before generalizing line events previous with
  | nil =>
    obtain ⟨-, rfl, -⟩ := course_cons h
    simpa using hline
  | cons step before ih =>
    obtain ⟨-, -, rest, next, echo, notices, -, hrespond, hrest⟩ := course_cons h
    have hnext : next.tabbed = true ↔ some step.2 = some Key.tab := by
      rw [Line.respond_tabbed hcompleting hrespond, Option.some_inj]
    rw [ih hnext hrest.symm, List.getLast?_cons]
    cases before.getLast? <;> rfl

variable {σ : Type} [Sink σ] {P : Bytes → σ → Prop}

/-- A reading comes to each line of its course, with the rest of the stream. -/
theorem readFrom_course (hP : Sink.Takes P)
    (h : course setup line events = before ++ (l, key) :: after) {written : Bytes} {sink : σ}
    (hsink : P written sink) (notices : List Notice) :
    ∃ there rest shown met earlier, there ≠ [] ∧ Key.next there = (.ok key, rest) ∧
      P shown met ∧ readFrom setup line ⟨events, sink, notices⟩ =
        readFrom setup l ⟨there, met, earlier⟩ := by
  induction before generalizing line events written sink notices with
  | nil =>
    obtain ⟨hne, rfl, rest, -, -, -, hnext, -⟩ := course_cons h
    exact ⟨events, rest, written, sink, notices, hne, hnext, hsink, rfl⟩
  | cons step before ih =>
    obtain ⟨hne, -, rest, next, echo, noted, hnext, hrespond, hrest⟩ := course_cons h
    obtain ⟨later, hlater, hread⟩ := readFrom_edit hP hsink hnext hne hrespond notices
    rw [hread]
    exact ih hrest.symm hlater _

/-- Wherever TAB is met in a reading with completion: what it makes of the line and
what it echoes follow from the word before the cursor, the names that begin with
it and whether the key before was TAB too. -/
theorem readLine_tab (hcompleting : setup.completing = true) (hP : Sink.Takes P)
    (hcourse : course setup .empty events = before ++ (l, .tab) :: after)
    {written : Bytes} {sink : σ} (hsink : P written sink) (notices : List Notice) :
    ∃ head word, Line.EndsIn l.text head word ∧
      ∃ next pieces noted, l.respond setup .tab = .edit next pieces noted ∧
        Line.Tabbed setup.prompt head word
          (Completion.namesFor (String.ofList word) (setup.candidates (String.ofList word)))
          (before.getLast?.map Prod.snd = some .tab) next.text pieces.flatten ∧
        ∃ there rest shown met left earlier,
          readLine setup ⟨events, sink, notices⟩ = readFrom setup l ⟨there, met, earlier⟩ ∧
          Key.next there = (.ok .tab, rest) ∧ P shown met ∧
          readFrom setup l ⟨there, met, earlier⟩ =
            readFrom setup next ⟨rest, left, earlier ++ noted⟩ ∧
          P (shown ++ Utf8.encode pieces.flatten) left := by
  obtain ⟨head, hends⟩ := l.endsIn_currentWord
  obtain ⟨next, pieces, noted, hcomplete, -, htabbed⟩ :=
    Line.complete_tabbed setup l hends
  have hrespond : l.respond setup .tab = .edit next pieces noted :=
    (if_pos hcompleting).trans hcomplete
  -- the flag of the line tells whether the key before was TAB
  have hempty : Line.empty.tabbed = true ↔ none = some Key.tab := by simp [Line.empty]
  have hagain := course_tabbed hcompleting hempty hcourse
  rw [Option.or_none] at hagain
  rw [propext hagain] at htabbed
  obtain ⟨there, rest, shown, met, earlier, hne, hnext, hmet, hread⟩ :=
    readFrom_course hP hcourse hsink notices
  obtain ⟨left, hleft, hedit⟩ := readFrom_edit hP hmet hnext hne hrespond earlier
  rw [Utf8.encode_flatten] at hleft
  exact ⟨head, l.currentWord, hends, next, pieces, noted, hrespond, htabbed,
    there, rest, shown, met, left, earlier, hread, hnext, hmet, hedit, hleft⟩

theorem readLine_tab_again :
    let setup : Setup := ⟨"$ ", fun _ => ["cd", "cat"], true⟩
    let events := Keystroke.events (Utf8.encode ['c', '\t', '\t', '\r'])
    let before : List (Line × Key) := [(.empty, .typed ['c']), (⟨['c'], false, false⟩, .tab)]
    let l : Line := ⟨['c'], false, true⟩
    setup.completing = true ∧ course setup .empty events = before ++ [(l, .tab)] ∧
      ∃ head word, Line.EndsIn l.text head word ∧
        ∃ next pieces noted, l.respond setup .tab = .edit next pieces noted ∧
          Line.Tabbed "$ " head word (Completion.namesFor (String.ofList word) ["cd", "cat"])
            (before.getLast?.map Prod.snd = some .tab) next.text pieces.flatten := by
  intro setup events before l
  have hcourse : course setup .empty events = before ++ [(l, .tab)] := by
    repeat rw [course_edit (by decide) rfl rfl]
    rw [course_finish (by decide) rfl rfl]
    rfl
  obtain ⟨head, word, hends, next, pieces, noted, hrespond, htabbed, -⟩ :=
    readLine_tab rfl Recorder.takes hcourse Recorder.unlimited_holds []
  exact ⟨rfl, hcourse, head, word, hends, next, pieces, noted, hrespond, htabbed⟩

end Console

end LineShell
