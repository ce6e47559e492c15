import LineShell.Proofs.Tabs

/-!
# TAB after TAB

Only the first of several TABs in a row can add to the line. What it adds when
several names go on together is all that they have in common: the same names
begin with the longer word, so that each later TAB has nothing to add and lists
them.
-/

set_option autoImplicit false

namespace LineShell

namespace Completion

def plain (names : List String) (typed : String) : List String :=
  names.filter (startsWith · typed)

theorem namesFor_plain (names : List String) (typed : String) :
    namesFor typed (plain names typed) = namesFor typed names := by
  ext name
  simp only [namesFor, plain, startsWith, Set.mem_ofPred_eq, List.mem_filter,
    List.isPrefixOf_iff_prefix]
  tauto

theorem IsCommon.namesFor_eq {typed text : String} {names : List String}
    (h : IsCommon (namesFor typed names) text) (hlonger : typed.toList <+: text.toList) :
    namesFor text names = namesFor typed names := by
  ext name
  exact ⟨fun hname => ⟨hname.1, hlonger.trans hname.2⟩, fun hname => ⟨hname.1, h.begins name hname⟩⟩

end Completion

namespace Line
open Completion (namesFor IsCommon plain)

theorem EndsIn.currentWord {l : Line} {head word : List Char} (h : EndsIn l.text head word) :
    l.currentWord = word := by
  have hbefore : l.before = word.reverse ++ head.reverse := by
    rw [← List.reverse_append, ← h.text, Line.text, List.reverse_reverse]
  have hword : word.reverse.takeWhile (fun c => !isBlank c) = word.reverse := by
    rw [List.takeWhile_eq_self_iff]
    intro c hc
    simp [h.unbroken c (List.mem_reverse.mp hc)]
  have hhead : head.reverse.takeWhile (fun c => !isBlank c) = [] := by
    cases hlast : head.reverse with
    | nil => rfl
    | cons c rest =>
      have hblank := h.blank c (by simp [List.getLast?_eq_head?_reverse, hlast])
      simp [hblank]
  rw [Line.currentWord, hbefore, List.takeWhile_append, hword, if_pos rfl, hhead, List.append_nil,
    List.reverse_reverse]

def press (setup : Setup) (l : Line) : Line × List Char :=
  match complete setup l with
  | .edit next echo _ => (next, echo.flatten)
  | .finish _ => (l, [])

def afterTabs (setup : Setup) (l : Line) : Nat → Line
  | 0 => l
  | n + 1 => (press setup (afterTabs setup l n)).1

def tabEcho (setup : Setup) (l : Line) (n : Nat) : List Char :=
  (press setup (afterTabs setup l n)).2

def matching (names : List String) (l : Line) : Set String :=
  namesFor (String.ofList l.currentWord) names

theorem currentWord_congr {l next : Line} (h : next.text = l.text) :
    next.currentWord = l.currentWord := by
  obtain ⟨head, hends⟩ := l.endsIn_currentWord
  rw [← h] at hends
  exact hends.currentWord

variable {setup : Setup} {names : List String} {l : Line} {common : String}

theorem respond_press (hcompleting : setup.completing = true) (l : Line) :
    ∃ pieces noted, l.respond setup .tab = .edit (press setup l).1 pieces noted ∧
      pieces.flatten = (press setup l).2 := by
  obtain ⟨head, hends⟩ := l.endsIn_currentWord
  obtain ⟨next, echo, noted, hcomplete, -⟩ := complete_tabbed setup l hends
  refine ⟨echo, noted, (if_pos hcompleting).trans ?_, ?_⟩ <;> simp [press, hcomplete]

section Source

variable (hsource : setup.candidates = plain names)
include hsource

theorem press_tabbed {head : List Char} (hends : EndsIn l.text head l.currentWord) :
    (press setup l).1.tabbed = true ∧
      Tabbed setup.prompt head l.currentWord (l.matching names) (l.tabbed = true)
        (press setup l).1.text (press setup l).2 := by
  obtain ⟨next, echo, noted, hcomplete, hagain, htabbed⟩ := complete_tabbed setup l hends
  simp only [hsource, Completion.namesFor_plain] at htabbed
  simp only [press, hcomplete]
  exact ⟨hagain, htabbed⟩

theorem press_stays (h : ¬ Grows l.currentWord (l.matching names)) :
    (press setup l).1.text = l.text := by
  obtain ⟨head, hends⟩ := l.endsIn_currentWord
  rw [(press_tabbed hsource hends).2.stays h, ← hends.text]

theorem press_single {name : String} (hword : l.currentWord ≠ [])
    (hname : l.matching names = {name}) : (press setup l).1.currentWord = [] := by
  obtain ⟨head, hends⟩ := l.endsIn_currentWord
  obtain ⟨rest, -, htext, -⟩ := (press_tabbed hsource hends).2.completes hword name hname
  have hblank : EndsIn (press setup l).1.text (head ++ name.toList ++ [' ']) [] := by
    refine ⟨by simp [htext], by simp, fun c hc => ?_⟩
    rw [List.getLast?_concat, Option.mem_some_iff] at hc
    subst hc
    decide
  exact hblank.currentWord

section Blankless

variable (hnames : ∀ name ∈ names, ∀ c ∈ name.toList, isBlank c = false)
include hnames

theorem press_shared (hword : l.currentWord ≠ []) (hmany : (l.matching names).Nontrivial)
    (hcommon : IsCommon (l.matching names) common)
    (hlonger : l.currentWord.length < common.toList.length) :
    (press setup l).1.currentWord = common.toList ∧
      (press setup l).1.matching names = l.matching names := by
  obtain ⟨head, hends⟩ := l.endsIn_currentWord
  obtain ⟨rest, hrest, htext, -⟩ :=
    (press_tabbed hsource hends).2.prolongs hword hmany common hcommon hlonger
  have hunbroken : ∀ c ∈ common.toList, isBlank c = false := by
    obtain ⟨name, hname⟩ := hmany.nonempty
    exact fun c hc => hnames name hname.1 c ((hcommon.begins name hname).mem hc)
  have hcurrent : (press setup l).1.currentWord = common.toList :=
    EndsIn.currentWord ⟨htext, hunbroken, hends.blank⟩
  refine ⟨hcurrent, ?_⟩
  rw [matching, hcurrent, String.ofList_toList]
  exact hcommon.namesFor_eq (by simp [hrest])

theorem press_settled (l : Line) :
    ¬ Grows (press setup l).1.currentWord ((press setup l).1.matching names) := by
  by_cases hgrows : Grows l.currentWord (l.matching names)
  · obtain ⟨hword, ⟨name, hname⟩ | ⟨hmany, common, hcommon, hlonger⟩⟩ := hgrows
    · exact not_grows_of_empty (press_single hsource hword hname)
    · obtain ⟨hcurrent, hsame⟩ := press_shared hsource hnames hword hmany hcommon hlonger
      rw [hcurrent, hsame]
      exact not_grows_of_isCommon hmany (by rwa [String.ofList_toList])
  · have hcurrent := currentWord_congr (press_stays hsource hgrows)
    rwa [matching, hcurrent]

theorem afterTabs_text (l : Line) (n : Nat) :
    (afterTabs setup l (n + 1)).text = (press setup l).1.text := by
  induction n with
  | zero => rfl
  | succ n ih =>
    rw [← ih]
    exact press_stays hsource (press_settled hsource hnames (afterTabs setup l n))

theorem afterTabs_changed {n : Nat}
    (h : (afterTabs setup l (n + 1)).text ≠ (afterTabs setup l n).text) : n = 0 := by
  cases n with
  | zero => rfl
  | succ n =>
    rw [afterTabs_text hsource hnames, afterTabs_text hsource hnames] at h
    exact absurd rfl h

/-- After TAB brought in what several names have in common, the next one lists them. -/
theorem tabEcho_shared (hword : l.currentWord ≠ []) (hmany : (l.matching names).Nontrivial)
    (hcommon : IsCommon (l.matching names) common)
    (hlonger : l.currentWord.length < common.toList.length) (n : Nat) :
    ∃ listed : List String, listed.Pairwise (fun a b => Utf8.ofString a < Utf8.ofString b) ∧
      (∀ name, name ∈ listed ↔ name ∈ l.matching names) ∧
      tabEcho setup l (n + 1) = newline ++ ("  ".intercalate listed).toList ++ newline ++
        setup.prompt.toList ++ (afterTabs setup l (n + 1)).text := by
  obtain ⟨hcurrent, hsame⟩ := press_shared hsource hnames hword hmany hcommon hlonger
  have hlater := currentWord_congr (afterTabs_text hsource hnames l n)
  have hmatching : (afterTabs setup l (n + 1)).matching names = l.matching names := by
    rw [matching, hlater, ← matching, hsame]
  have hne : (afterTabs setup l (n + 1)).currentWord ≠ [] := by
    rw [hlater, hcurrent]
    exact List.ne_nil_of_length_pos (Nat.zero_lt_of_lt hlonger)
  obtain ⟨before, hbefore⟩ := (afterTabs setup l n).endsIn_currentWord
  have hagain : (afterTabs setup l (n + 1)).tabbed = true := (press_tabbed hsource hbefore).1
  have hsettled := press_settled hsource hnames (afterTabs setup l n)
  obtain ⟨head, hends⟩ := (afterTabs setup l (n + 1)).endsIn_currentWord
  have htabbed := (press_tabbed hsource hends).2
  rw [hmatching] at htabbed
  change ¬ Grows _ ((afterTabs setup l (n + 1)).matching names) at hsettled
  rw [hmatching] at hsettled
  obtain ⟨listed, hsorted, hmem, hecho⟩ := htabbed.lists hsettled ⟨hne, hmany, hagain⟩
  rw [htabbed.stays hsettled, ← hends.text] at hecho
  exact ⟨listed, hsorted, hmem, hecho⟩

end Blankless

end Source

end Line

namespace Console
open Line (afterTabs tabEcho matching newline)

variable {σ : Type} [Sink σ] {P : Bytes → σ → Prop} {setup : Setup}

theorem readFrom_replicate (hP : Sink.Takes P) (hcompleting : setup.completing = true) (l : Line)
    (n : Nat) (rest : List Event) {written : Bytes} {sink : σ} (hsink : P written sink)
    (notices : List Notice) :
    ∃ after noted, P (written ++ Utf8.encode ((List.range n).flatMap (tabEcho setup l))) after ∧
      readFrom setup l ⟨List.replicate n (.byte Key.horizontalTab) ++ rest, sink, notices⟩ =
        readFrom setup (afterTabs setup l n) ⟨rest, after, noted⟩ := by
  induction n generalizing rest with
  | zero => exact ⟨sink, notices, by simpa [Utf8.encode] using hsink, rfl⟩
  | succ n ih =>
    obtain ⟨middle, noted, hmiddle, hread⟩ := ih (.byte Key.horizontalTab :: rest)
    obtain ⟨pieces, more, hrespond, hpieces⟩ :=
      Line.respond_press hcompleting (afterTabs setup l n)
    have hnext : Key.next (.byte Key.horizontalTab :: rest) = (.ok .tab, rest) := rfl
    obtain ⟨after, hafter, hlast⟩ :=
      readFrom_edit hP hmiddle hnext (List.cons_ne_nil _ _) hrespond noted
    refine ⟨after, noted ++ more, ?_, ?_⟩
    · rw [Utf8.encode_flatten, hpieces, List.append_assoc, ← Utf8.encode_append] at hafter
      rw [List.range_succ, List.flatMap_append, List.flatMap_singleton]
      exact hafter
    · rw [List.replicate_succ', List.append_assoc, List.singleton_append, hread, hlast]
      rfl

/-- Of the TABs in a row at most one changes the line, and reading goes on with
what they leave. If it brought in what several names have in common, each later
one leaves the line as it is and lists the names that began with the word before. -/
theorem readFrom_tabs (hP : Sink.Takes P) (hcompleting : setup.completing = true)
    {names : List String} (hsource : setup.candidates = Completion.plain names)
    (hnames : ∀ name ∈ names, ∀ c ∈ name.toList, isBlank c = false) (l : Line) :
    (∀ (n : Nat) (rest : List Event) {written : Bytes} {sink : σ}, P written sink → ∀ notices,
      ∃ after noted, P (written ++ Utf8.encode ((List.range n).flatMap (tabEcho setup l))) after ∧
        readFrom setup l ⟨List.replicate n (.byte Key.horizontalTab) ++ rest, sink, notices⟩ =
          readFrom setup (afterTabs setup l n) ⟨rest, after, noted⟩) ∧
    (∀ i j, (afterTabs setup l (i + 1)).text ≠ (afterTabs setup l i).text →
      (afterTabs setup l (j + 1)).text ≠ (afterTabs setup l j).text → i = j) ∧
    ∀ i common, (afterTabs setup l (i + 1)).text ≠ (afterTabs setup l i).text →
      let typed := String.ofList (afterTabs setup l i).currentWord
      Completion.complete typed (setup.candidates typed) = .extension common →
      Completion.namesFor common names = Completion.namesFor typed names ∧
      ∀ j, i < j → (afterTabs setup l (j + 1)).text = (afterTabs setup l j).text ∧
        ∃ listed : List String, listed.Pairwise (fun a b => Utf8.ofString a < Utf8.ofString b) ∧
          (∀ name, name ∈ listed ↔ name ∈ Completion.namesFor typed names) ∧
          tabEcho setup l j = newline ++ ("  ".intercalate listed).toList ++ newline ++
            setup.prompt.toList ++ (afterTabs setup l j).text := by
  refine ⟨fun n rest => readFrom_replicate hP hcompleting l n rest, fun i j hi hj => ?_, ?_⟩
  · rw [Line.afterTabs_changed hsource hnames hi, Line.afterTabs_changed hsource hnames hj]
  intro i common hi typed hcomplete
  -- only the first TAB can have changed the line
  obtain rfl := Line.afterTabs_changed hsource hnames hi
  have hword : l.currentWord ≠ [] := by
    intro hempty
    exact hi (Line.press_stays hsource (Line.not_grows_of_empty hempty))
  have hfits := Completion.complete_fits typed (setup.candidates typed)
  rw [hcomplete, hsource, Completion.namesFor_plain] at hfits
  obtain ⟨hmany, hcommon, hlonger⟩ := hfits
  have hbegins : typed.toList <+: common.toList := by
    obtain ⟨name, hname⟩ := hmany.nonempty
    exact List.prefix_of_prefix_length_le hname.2 (hcommon.begins name hname) hlonger.le
  refine ⟨hcommon.namesFor_eq hbegins, fun j hj => ?_⟩
  obtain ⟨n, rfl⟩ := Nat.exists_eq_succ_of_ne_zero hj.ne'
  refine ⟨?_, Line.tabEcho_shared hsource hnames hword hmany hcommon
    (by simpa [typed, afterTabs] using hlonger) n⟩
  rw [Line.afterTabs_text hsource hnames, Line.afterTabs_text hsource hnames]

theorem readFrom_tabs_cat :
    let names := ["cat", "car"]
    let setup : Setup := ⟨"$ ", Completion.plain names, true⟩
    let l : Line := ⟨['c'], false, false⟩
    setup.completing = true ∧ setup.candidates = Completion.plain names ∧
      (∀ name ∈ names, ∀ c ∈ name.toList, isBlank c = false) ∧
      (afterTabs setup l 1).text = ['c', 'a'] ∧
      ∀ j, 0 < j → (afterTabs setup l (j + 1)).text = (afterTabs setup l j).text ∧
        ∃ listed : List String, (∀ name, name ∈ listed ↔ name ∈ Completion.namesFor "c" names) ∧
          tabEcho setup l j = newline ++ ("  ".intercalate listed).toList ++ newline ++
            "$ ".toList ++ (afterTabs setup l j).text := by
  intro names setup l
  have hcompleting : setup.completing = true := rfl
  have hnames : ∀ name ∈ names, ∀ c ∈ name.toList, isBlank c = false :=
    @of_decide_eq_true _ (@List.decidableBAll _ _ (fun _ => List.decidableBAll _ _) names)
      (by decide +kernel)
  have hfirst : (afterTabs setup l 1).text = ['c', 'a'] := by decide +kernel
  obtain ⟨-, -, hextends⟩ := readFrom_tabs Recorder.takes hcompleting rfl hnames l
  obtain ⟨-, hlater⟩ := hextends 0 "ca" (by rw [hfirst]; decide) (by decide +kernel)
  refine ⟨hcompleting, rfl, hnames, hfirst, fun j hj => ⟨(hlater j hj).1, ?_⟩⟩
  obtain ⟨listed, -, hmem, hecho⟩ := (hlater j hj).2
  exact ⟨listed, hmem, hecho⟩

end Console

end LineShell
