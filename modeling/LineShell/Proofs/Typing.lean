import LineShell.Proofs.Keystroke
import LineShell.Proofs.Reading

/-!
# Typing a line

An editor that knows keystrokes instead of bytes: it keeps the characters typed
so far and nothing else. Reading a line from the bytes of keystrokes does what
this editor does, and leaves the bytes of those that it did not come to.
-/

set_option autoImplicit false

namespace LineShell.Typing
open LineShell.Keystroke

inductive Status where
  | going (buffer : List Char)
  | over (result : Except ReadError String)

def backslashes (buffer : List Char) : Nat := (buffer.reverse.takeWhile (· = '\\')).length

def press (buffer : List Char) : Keystroke → Status × Bytes
  | .char c => (.going (buffer ++ [c]), Utf8.encode [c])
  | .tab => (.going (buffer ++ ['\t']), Utf8.encode ['\t'])
  | .enter _ =>
    if backslashes buffer % 2 = 0 then (.over (.ok (String.ofList buffer)), [])
    else (.going (buffer ++ ['\n']), [0x0d, 0x0a])
  | .erase => (.going buffer.dropLast, if buffer = [] then [] else [0x08, 0x20, 0x08])
  | .interrupt => (.over (.error (.abort .interrupt)), [])
  | .endOfInput => (.over (.error (.abort .endOfInput)), [])
  | .ignored _ | .sequence _ _ _ | .alt _ | .bareEscape | .cutSequence _ _ => (.going buffer, [])

structure Typed where
  status : Status
  /-- The keystrokes after the one that ended the line. -/
  unread : List Keystroke
  echo : Bytes

def run (buffer : List Char) : List Keystroke → Typed
  | [] => ⟨.going buffer, [], []⟩
  | k :: keys =>
    match press buffer k with
    | (.over result, echo) => ⟨.over result, keys, echo⟩
    | (.going buffer, echo) =>
      let typed := run buffer keys
      { typed with echo := echo ++ typed.echo }

def lineOf (buffer : List Char) : Line := ⟨buffer.reverse, Line.endsEscaped buffer.reverse, false⟩

theorem endsEscaped_cons (c : Char) (before : List Char) :
    Line.endsEscaped (c :: before) = (c = '\\' && !Line.endsEscaped before) := by
  by_cases hc : c = '\\'
  · simp only [Line.endsEscaped, hc, List.takeWhile_cons, decide_true, if_true, List.length_cons,
      Bool.true_and]
    by_cases hodd : (before.takeWhile (· = '\\')).length % 2 = 1
    · simp [hodd, Nat.add_mod]
    · simp [Nat.add_mod, Nat.mod_two_ne_one.mp hodd]
  · simp [Line.endsEscaped, hc]

theorem endsEscaped_iff (buffer : List Char) :
    Line.endsEscaped buffer.reverse = true ↔ backslashes buffer % 2 ≠ 0 := by
  rw [Line.endsEscaped, ← backslashes, decide_eq_true_iff]
  omega

theorem type_lineOf (buffer : List Char) (c : Char) :
    (lineOf buffer).type [c] = lineOf (buffer ++ [c]) := by
  have h := endsEscaped_cons c buffer.reverse
  simp [lineOf, Line.type, h]

/-- The editor at work on bytes responds to a key as the keystroke asks. -/
theorem respond_press {setup : Setup} {k : Keystroke} (hk : k.Admissible setup.completing)
    (buffer : List Char) :
    match press buffer k with
    | (.over result, echo) => (lineOf buffer).respond setup k.key = .finish result ∧ echo = []
    | (.going next, echo) => ∃ pieces, (lineOf buffer).respond setup k.key =
        .edit (lineOf next) pieces [] ∧ (pieces.map Utf8.encode).flatten = echo := by
  cases k with
  | char c => exact ⟨[[c]], by rw [key, Line.respond, type_lineOf], by simp⟩
  | tab =>
    have hoff : setup.completing = false := hk
    refine ⟨[['\t']], ?_, by simp⟩
    simp only [key, Line.respond, hoff, type_lineOf]
    rfl
  | enter b =>
    by_cases heven : backslashes buffer % 2 = 0
    · have hescaped : (lineOf buffer).escaped = false := by
        rw [← Bool.not_eq_true]
        exact fun h => (endsEscaped_iff buffer).mp h heven
      have htext : (lineOf buffer).text = buffer := List.reverse_reverse buffer
      simp only [press, heven, if_true, key, Line.respond, hescaped, htext]
      exact ⟨rfl, trivial⟩
    · have hescaped : (lineOf buffer).escaped = true := (endsEscaped_iff buffer).mpr heven
      simp only [press, heven, if_false]
      refine ⟨[Line.newline], ?_, rfl⟩
      have hnewline := endsEscaped_cons '\n' buffer.reverse
      simp only [key, Line.respond, hescaped, if_true]
      simp [lineOf, hnewline]
  | erase =>
    refine ⟨if buffer = [] then [] else [Line.rubout], ?_, ?_⟩
    · simp [key, Line.respond, lineOf]
    · split <;> rfl
  | interrupt => exact ⟨rfl, rfl⟩
  | endOfInput => exact ⟨rfl, rfl⟩
  | _ => exact ⟨[], rfl, rfl⟩

theorem readFrom_keystrokes {σ : Type} [Sink σ] {P : Bytes → σ → Prop} (hP : Sink.Takes P)
    {setup : Setup} {keys : List Keystroke} (hkeys : Script setup.completing keys)
    (buffer : List Char) (written : Bytes) {sink : σ} (hsink : P written sink)
    (rest : List Event) (notices : List Notice) :
    ∃ after, P (written ++ (run buffer keys).echo) after ∧
      Console.readFrom setup (lineOf buffer) ⟨events (bytesOf keys) ++ rest, sink, notices⟩ =
        match (run buffer keys).status with
        | .over result =>
          (result, ⟨events (bytesOf (run buffer keys).unread) ++ rest, after, notices⟩)
        | .going buffer => Console.readFrom setup (lineOf buffer) ⟨rest, after, notices⟩ := by
  induction keys generalizing buffer written sink with
  | nil => exact ⟨sink, by simpa [run] using hsink, rfl⟩
  | cons k keys ih =>
    obtain ⟨hk, hafter, hkeys⟩ := hkeys
    have hbytes : events (bytesOf (k :: keys)) ++ rest =
        events k.bytes ++ (events (bytesOf keys) ++ rest) := by
      simp [bytesOf]
    have hnext := next_keystroke hk hafter rest
    have hne : events k.bytes ++ (events (bytesOf keys) ++ rest) ≠ [] := by
      simp [events, k.bytes_ne_nil]
    have hpress := respond_press hk buffer
    rw [hbytes]
    rcases hp : press buffer k with ⟨next | result, echo⟩
    · simp only [hp] at hpress
      obtain ⟨pieces, hrespond, rfl⟩ := hpress
      obtain ⟨middle, hmiddle, hread⟩ :=
        Console.readFrom_edit hP hsink hnext hne hrespond notices
      obtain ⟨after, hafter, hrest⟩ := ih hkeys next _ hmiddle
      refine ⟨after, by simpa [run, hp] using hafter, ?_⟩
      rw [hread, List.append_nil, hrest]
      simp only [run, hp]
    · simp only [hp] at hpress
      obtain ⟨hrespond, rfl⟩ := hpress
      refine ⟨sink, by simpa [run, hp] using hsink, ?_⟩
      rw [Console.readFrom_finish hnext hne hrespond]
      simp only [run, hp]

/-- Reading a line refines the editor of keystrokes. If the keystrokes end the
line, the result is the editor's and the rest of the stream is not touched;
otherwise reading goes on there with the text typed so far. -/
theorem readLine_keystrokes (setup : Setup) {keys : List Keystroke}
    (hkeys : Script setup.completing keys) (rest : List Event) :
    let reading := Console.readLine setup ⟨events (bytesOf keys) ++ rest, Recorder.unlimited, []⟩
    match run [] keys with
    | ⟨.over result, unread, echo⟩ => reading.1 = result ∧
      reading.2.events = events (bytesOf unread) ++ rest ∧ reading.2.sink.kept.bytes = echo ∧
      reading.2.notices = []
    | ⟨.going buffer, _, echo⟩ => ∃ sink, Recorder.Holds echo sink ∧
      reading = Console.readFrom setup (lineOf buffer) ⟨rest, sink, []⟩ ∧
      (rest = [] → reading = (.error (.abort .endOfInput), ⟨[], sink, []⟩)) := by
  obtain ⟨after, hafter, hread⟩ :=
    readFrom_keystrokes Recorder.takes hkeys [] [] Recorder.unlimited_holds rest []
  have hline : Console.readLine setup
      ⟨events (bytesOf keys) ++ rest, Recorder.unlimited, []⟩ = _ := hread
  intro reading
  rcases htyped : run [] keys with ⟨buffer | result, unread, echo⟩
  · simp only [htyped, List.nil_append] at hafter hline ⊢
    refine ⟨after, hafter, hline, ?_⟩
    rintro rfl
    exact hline.trans (Console.readFrom_nil rfl)
  · simp only [htyped, List.nil_append] at hafter hline ⊢
    simp only [reading, hline]
    exact ⟨trivial, trivial, hafter.2, trivial⟩

theorem readLine_keystrokes_continued :
    let keys : List Keystroke := [.char 'a', .cutSequence 0x5b [0x31], .char 'é', .char '\\',
      .enter 0x0a, .char 'x', .erase, .bareEscape, .enter 0x0d, .char 'z']
    let reading := Console.readLine ⟨"$ ", fun _ => [], true⟩
      ⟨events (bytesOf keys) ++ [.failed .noSpace], Recorder.unlimited, []⟩
    Script true keys ∧ reading.1 = .ok "aé\\\n" ∧
      reading.2.events = [.byte 0x7a, .failed .noSpace] := by
  intro keys reading
  have hkeys : Script true keys := by decide
  have hreading := readLine_keystrokes ⟨"$ ", fun _ => [], true⟩ hkeys [.failed .noSpace]
  exact ⟨hkeys, hreading.1, hreading.2.1⟩

end LineShell.Typing
