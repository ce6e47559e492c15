import LineShell.Proofs.Completing
import LineShell.Proofs.Keystroke
import LineShell.Proofs.Reading

/-!
# The line on the screen

A terminal is rows of cells and a cursor. What is echoed while a line is edited
keeps the row of the cursor in step with the line: it shows the prompt and the
text, nothing after them, and the cursor stands at their end. A list of names
moves both to a fresh row.
-/

set_option autoImplicit false

namespace LineShell

/-! ## Terminals -/

/-- The rows from the top of the terminal to its end, those above the cursor
last first. -/
structure Screen where
  above : List (List Char)
  row : List Char
  below : List (List Char)
  column : Nat
  deriving DecidableEq, Repr

namespace Screen

def Printable (c : Char) : Prop := 0x20 ≤ c.toNat ∧ c.toNat ≠ 0x7f

instance (c : Char) : Decidable (Printable c) := inferInstanceAs (Decidable (_ ∧ _))

theorem printable_of_all {cs : List Char} (h : (cs.all fun c => Printable c) = true) :
    ∀ c ∈ cs, Printable c := by
  intro c hc
  exact of_decide_eq_true (List.all_eq_true.mp h c hc)

def blanks (n : Nat) : List Char := List.replicate n ' '

def overwrite (row : List Char) (column : Nat) (c : Char) : List Char :=
  row.take column ++ blanks (column - row.length) ++ c :: row.drop (column + 1)

/-- Each character takes one cell. Of the control characters the bell and those
without a meaning change nothing. -/
def put (s : Screen) (c : Char) : Screen :=
  if c = '\x08' then { s with column := s.column - 1 }
  else if c = '\r' then { s with column := 0 }
  else if c = '\n' then ⟨s.row :: s.above, s.below.headD [], s.below.tail, s.column⟩
  else if Printable c then { s with row := overwrite s.row s.column c, column := s.column + 1 }
  else s

def replay (s : Screen) (cs : List Char) : Screen := cs.foldl put s

theorem replay_append (s : Screen) (a b : List Char) :
    s.replay (a ++ b) = (s.replay a).replay b := List.foldl_append

/-- The cursor stands after a text that is alone in its row, with nothing below. -/
structure Shows (s : Screen) (text : List Char) : Prop where
  row : ∃ n, s.row = text ++ blanks n
  column : s.column = text.length
  below : ∀ row ∈ s.below, ∃ n, row = blanks n

theorem put_printable (s : Screen) {c : Char} (h : Printable c) :
    s.put c = { s with row := overwrite s.row s.column c, column := s.column + 1 } := by
  have hne : ∀ d : Char, d.toNat < 0x20 → c ≠ d := by
    rintro d hd rfl
    exact absurd h.1 (Nat.not_le.mpr hd)
  rw [put, if_neg (hne _ (by decide)), if_neg (hne _ (by decide)), if_neg (hne _ (by decide)),
    if_pos h]

theorem overwrite_append (text rest : List Char) (c : Char) :
    overwrite (text ++ rest) text.length c = text ++ c :: rest.drop 1 := by
  have hreach : text.length - (text ++ rest).length = 0 := by
    rw [List.length_append]
    omega
  rw [overwrite, hreach, List.take_left, List.drop_append, List.drop_eq_nil_of_le (by omega)]
  simp [blanks]

namespace Shows

variable {s : Screen} {text : List Char}

theorem put (h : s.Shows text) {c : Char} (hc : Printable c) : (s.put c).Shows (text ++ [c]) := by
  obtain ⟨⟨n, hrow⟩, hcolumn, hbelow⟩ := h
  rw [put_printable s hc]
  refine ⟨⟨n - 1, ?_⟩, ?_, hbelow⟩
  · show overwrite s.row s.column c = _
    rw [hrow, hcolumn, overwrite_append, blanks, List.drop_replicate, List.append_assoc]
    rfl
  · show s.column + 1 = _
    rw [hcolumn, List.length_append]
    rfl

theorem print (h : s.Shows text) {cs : List Char} (hcs : ∀ c ∈ cs, Printable c) :
    (s.replay cs).Shows (text ++ cs) := by
  induction cs generalizing s text with
  | nil => simpa [replay] using h
  | cons c cs ih =>
    have hput := ih (h.put (hcs c (by simp))) fun d hd => hcs d (by simp [hd])
    rwa [List.append_assoc] at hput

theorem rubout {c : Char} (h : s.Shows (text ++ [c])) : (s.replay Line.rubout).Shows text := by
  obtain ⟨⟨n, hrow⟩, hcolumn, hbelow⟩ := h
  have hback : s.column - 1 = text.length := by
    rw [hcolumn, List.length_append]
    rfl
  have hover : overwrite s.row (s.column - 1) ' ' = text ++ blanks (n + 1) := by
    rw [hrow, hback, List.append_assoc, overwrite_append]
    rfl
  exact ⟨⟨n + 1, hover⟩, hback, hbelow⟩

theorem newline (h : s.Shows text) : (s.replay Line.newline).Shows [] := by
  obtain ⟨-, -, hbelow⟩ := h
  refine ⟨?_, rfl, fun row hrow => hbelow row (List.mem_of_mem_tail hrow)⟩
  show ∃ n, s.below.headD [] = blanks n
  cases hrows : s.below with
  | nil => exact ⟨0, rfl⟩
  | cons row rows => exact hbelow row (by simp [hrows])

theorem bell (h : s.Shows text) : (s.replay Line.bell).Shows text := h

end Shows

end Screen

/-! ## Keystrokes and their echo -/

namespace Keystroke

def Breaks : Keystroke → Prop
  | enter _ | interrupt | endOfInput => True
  | _ => False

instance (k : Keystroke) : Decidable k.Breaks :=
  match k with
  | enter _ | interrupt | endOfInput => .isTrue trivial
  | char _ | erase | tab | ignored _ | sequence _ _ _ | alt _ | bareEscape | cutSequence _ _ =>
    .isFalse id

end Keystroke

namespace Line
open Screen

def pressed (setup : Setup) (l : Line) : List Keystroke → Line
  | [] => l
  | k :: keys =>
    match l.respond setup k.key with
    | .edit next _ _ => next.pressed setup keys
    | .finish _ => l

variable {setup : Setup}

structure Plain (setup : Setup) : Prop where
  prompt : ∀ c ∈ setup.prompt.toList, Printable c
  names : ∀ word, ∀ name ∈ setup.candidates word, ∀ c ∈ name.toList, Printable c

/-- A keystroke changes the line and the screen alike. -/
theorem respond_shows (hplain : Plain setup) {l : Line} {k : Keystroke} {s : Screen}
    (hk : k.Admissible false) (hstay : ¬ k.Breaks) (htab : k = .tab → setup.completing = true)
    (hline : ∀ c ∈ l.text, Printable c) (hs : s.Shows (setup.prompt.toList ++ l.text)) :
    ∃ next echo notices, l.respond setup k.key = .edit next echo notices ∧
      (∀ c ∈ next.text, Printable c) ∧
      (s.replay echo.flatten).Shows (setup.prompt.toList ++ next.text) := by
  cases k with
  | char c =>
    have hc : Printable c := hk
    have htext : (l.type [c]).text = l.text ++ [c] := by simp [type, text]
    refine ⟨_, _, _, rfl, ?_, ?_⟩
    · rw [htext, List.forall_mem_append]
      exact ⟨hline, by simpa using hc⟩
    · rw [htext, ← List.append_assoc]
      exact hs.put hc
  | enter b => exact absurd trivial hstay
  | interrupt => exact absurd trivial hstay
  | endOfInput => exact absurd trivial hstay
  | erase =>
    refine ⟨_, _, _, rfl, fun c hc => hline c ?_, ?_⟩
    · exact List.mem_reverse.mpr (List.mem_of_mem_tail (List.mem_reverse.mp hc))
    · rcases hbefore : l.before with _ | ⟨c, before⟩
      · simpa [text, hbefore, replay] using hs
      · have htext : l.text = before.reverse ++ [c] := by simp [text, hbefore]
        rw [htext, ← List.append_assoc] at hs
        exact hs.rubout
  | tab =>
    have hnames : ∀ c, Offered setup l c → Printable c := by
      rintro c ⟨name, hname, hc⟩
      exact hplain.names _ name hname c hc
    have htab : l.respond setup .tab = complete setup l := if_pos (htab rfl)
    obtain ⟨notices, ⟨hbell, -⟩ | ⟨rest, hrest, hoffered, -⟩ | ⟨names, hlist, hoffered, -⟩⟩ :=
      l.complete_cases setup
    · exact ⟨_, _, _, htab.trans hbell, hline, hs.bell⟩
    · have hprintable : ∀ c ∈ rest, Printable c := by
        intro c hc
        rcases hoffered c hc with rfl | hname
        · decide
        · exact hnames c hname
      have htext : (l.append rest).text = l.text ++ rest := by simp [append, text]
      refine ⟨_, _, _, htab.trans hrest, ?_, ?_⟩
      · rw [htext, List.forall_mem_append]
        exact ⟨hline, hprintable⟩
      · rw [htext, ← List.append_assoc, List.flatten_singleton]
        exact hs.print hprintable
    · have hlisted := hs.newline.print
        (forall_listing (by decide) fun name hname c hc => hnames c (hoffered name hname c hc))
      have hshown := (hlisted.newline.print hplain.prompt).print hline
      refine ⟨_, _, _, htab.trans hlist, hline, ?_⟩
      simpa only [List.flatten_cons, List.flatten_nil, List.append_nil, replay_append,
        List.nil_append] using hshown
  | _ => exact ⟨_, _, _, rfl, hline, hs⟩

end Line

namespace Console
open Keystroke (bytesOf)

variable {σ : Type} [Sink σ] {setup : Setup} {keys more : List Keystroke} {start : Screen}

theorem readFrom_screen {P : Bytes → σ → Prop} (hP : Sink.Takes P) (hplain : Line.Plain setup)
    (hkeys : Keystroke.Script false (keys ++ more)) (hstay : ∀ k ∈ keys, ¬ k.Breaks)
    (htab : .tab ∈ keys → setup.completing = true) {line : Line} {echo : List Char} {sink : σ}
    (hline : ∀ c ∈ line.text, Screen.Printable c) (hsink : P (Utf8.encode echo) sink)
    (hstart : (start.replay echo).Shows (setup.prompt.toList ++ line.text)) (rest : List Event)
    (notices : List Notice) :
    ∃ echo after noted, P (Utf8.encode echo) after ∧
      readFrom setup line ⟨Keystroke.events (bytesOf (keys ++ more)) ++ rest, sink, notices⟩ =
        readFrom setup (line.pressed setup keys)
          ⟨Keystroke.events (bytesOf more) ++ rest, after, noted⟩ ∧
      (start.replay echo).Shows (setup.prompt.toList ++ (line.pressed setup keys).text) := by
  induction keys generalizing line echo sink notices with
  | nil => exact ⟨echo, sink, notices, hsink, rfl, hstart⟩
  | cons k keys ih =>
    rw [List.cons_append] at hkeys
    obtain ⟨hk, hafter, hkeys⟩ := hkeys
    have hbytes : Keystroke.events (bytesOf (k :: (keys ++ more))) ++ rest =
        Keystroke.events k.bytes ++ (Keystroke.events (bytesOf (keys ++ more)) ++ rest) := by
      simp [bytesOf]
    have hnext := Keystroke.next_keystroke hk hafter rest
    have hne : Keystroke.events k.bytes ++ (Keystroke.events (bytesOf (keys ++ more)) ++ rest) ≠
        [] := by
      simp [Keystroke.events, k.bytes_ne_nil]
    obtain ⟨next, pieces, noted, hrespond, hprintable, hshows⟩ := Line.respond_shows hplain hk
      (hstay k (by simp)) (fun h => htab (by simp [h])) hline hstart
    obtain ⟨middle, hmiddle, hread⟩ := readFrom_edit hP hsink hnext hne hrespond notices
    rw [Utf8.encode_flatten, ← Utf8.encode_append] at hmiddle
    rw [← Screen.replay_append] at hshows
    have hpressed : line.pressed setup (k :: keys) = next.pressed setup keys := by
      rw [Line.pressed, hrespond]
    rw [List.cons_append, hbytes, hread, hpressed]
    exact ih hkeys (fun k hk => hstay k (by simp [hk])) (fun h => htab (by simp [h])) hprintable
      hmiddle hshows _

/-- Wherever the keystrokes have come to, what was echoed so far makes the screen
show the prompt and the line. -/
theorem readLine_screen (hplain : Line.Plain setup)
    (hkeys : Keystroke.Script false (keys ++ more)) (hstay : ∀ k ∈ keys, ¬ k.Breaks)
    (htab : .tab ∈ keys → setup.completing = true) (hstart : start.Shows setup.prompt.toList)
    (rest : List Event) :
    ∃ sink notices,
      readLine setup
          ⟨Keystroke.events (bytesOf (keys ++ more)) ++ rest, Recorder.unlimited, []⟩ =
        readFrom setup (Line.empty.pressed setup keys)
          ⟨Keystroke.events (bytesOf more) ++ rest, sink, notices⟩ ∧
      (start.replay (Utf8.decodeLossy sink.kept.bytes)).Shows
        (setup.prompt.toList ++ (Line.empty.pressed setup keys).text) := by
  have hempty : (start.replay []).Shows (setup.prompt.toList ++ Line.empty.text) := by
    rw [show Line.empty.text = [] from rfl, List.append_nil]
    exact hstart
  have hnothing : Recorder.Holds (Utf8.encode []) Recorder.unlimited := Recorder.unlimited_holds
  obtain ⟨echo, sink, notices, hsink, hread, hshows⟩ := readFrom_screen Recorder.takes hplain
    hkeys hstay htab (by simp [Line.empty, Line.text]) hnothing hempty rest []
  refine ⟨sink, notices, hread, ?_⟩
  rw [hsink.2, Utf8.decodeLossy_encode]
  exact hshows

theorem readLine_screen_listing :
    let setup : Setup := ⟨"$ ", fun _ => ["cat", "cd"], true⟩
    let keys : List Keystroke := [.char 'c', .tab, .tab, .char 'a', .tab, .erase]
    ∃ sink notices,
      readLine setup ⟨Keystroke.events (bytesOf (keys ++ [.bareEscape, .enter 0x0d])) ++ [],
          Recorder.unlimited, []⟩ =
        readFrom setup (Line.empty.pressed setup keys)
          ⟨Keystroke.events (bytesOf [.bareEscape, .enter 0x0d]) ++ [], sink, notices⟩ ∧
      ((⟨[], ['$', ' '], [], 2⟩ : Screen).replay (Utf8.decodeLossy sink.kept.bytes)).Shows
        "$ cat".toList := by
  intro setup keys
  have hnames : ∀ name ∈ ["cat", "cd"],
      (name.toList.all fun c => Screen.Printable c) = true := by
    decide +kernel
  have hplain : Line.Plain setup :=
    ⟨Screen.printable_of_all (by decide +kernel),
      fun _ name hname => Screen.printable_of_all (hnames name hname)⟩
  have hstart : (⟨[], ['$', ' '], [], 2⟩ : Screen).Shows setup.prompt.toList :=
    ⟨⟨0, by decide⟩, by decide, by simp⟩
  have hkeys : Keystroke.Script false (keys ++ [.bareEscape, .enter 0x0d]) := by decide
  have hstay : ∀ k ∈ keys, ¬ k.Breaks := by decide
  have htext : setup.prompt.toList ++ (Line.empty.pressed setup keys).text = "$ cat".toList := by
    decide +kernel
  have hscreen := readLine_screen hplain hkeys hstay (fun _ => rfl) hstart []
  rwa [htext] at hscreen

end Console

end LineShell
