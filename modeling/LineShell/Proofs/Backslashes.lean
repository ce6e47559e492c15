import LineShell.Proofs.Turns
import LineShell.Proofs.Typing

/-!
# Backslashes before Enter

A line remembers whether Enter goes on with it. The memory is kept from key to key and
counts nothing, yet it always tells whether the backslashes at the end of the line are
odd in number, as long as no character that is typed lacks bytes that continue it.
-/

set_option autoImplicit false

namespace LineShell

namespace Utf8

theorem scan_ne_nil {bs : Bytes} (h : bs ≠ []) (state : Option Sequence) : scan state bs ≠ [] := by
  induction bs generalizing state with
  | nil => exact absurd rfl h
  | cons b rest ih =>
    have hunder (p : Sequence) : scan (some p) rest ≠ [] := by
      cases rest with
      | nil => simp [scan]
      | cons c rest => exact ih (List.cons_ne_nil c rest) (some p)
    cases state with
    | none =>
      rw [scan]
      split <;> simp [hunder]
    | some p =>
      rw [scan]
      split
      · split <;> simp [hunder]
      · simp

theorem decodeLossy_ne_nil {bs : Bytes} (h : bs ≠ []) : decodeLossy bs ≠ [] := by
  rw [decodeLossy, ne_eq, List.map_eq_nil_iff]
  exact scan_ne_nil h none

end Utf8

namespace Key

/-- The bytes that are read with the first one, as those that it announces. -/
def followers (events : List Event) : Bytes :=
  match nextByte events with
  | (.error _, _) => []
  | (.ok b, rest) =>
    match nextBytes (Utf8.announced b) rest with
    | (.error _, _) => []
    | (.ok bs, _) => bs

/-- All that is read with the first byte continues it. A character that the stream
breaks off is not read. -/
def Unbroken (events : List Event) : Prop :=
  ∀ b ∈ followers events, Utf8.isContinuation b = true

instance (events : List Event) : Decidable (Unbroken events) :=
  List.decidableBAll (fun b => Utf8.isContinuation b = true) (followers events)

theorem next_typed_followers {events rest : List Event} {text : List Char}
    (h : next events = (.ok (.typed text), rest)) : ∃ b,
      text = Utf8.decodeLossy (b :: followers events) ∧
        (followers events).length = Utf8.announced b := by
  unfold next at h
  unfold followers
  rcases hlead : nextByte events with ⟨e | b, middle⟩ <;> rw [hlead] at h
  · cases h
  · obtain ⟨-, bs, htext, hbs⟩ := ofLead_typed h
    dsimp only
    rw [hbs]
    exact ⟨b, htext, (nextBytes_ok hbs).1⟩

theorem next_typed_backslash {events rest : List Event} {text : List Char}
    (hunbroken : Unbroken events) (h : next events = (.ok (.typed text), rest)) :
    text = ['\\'] ∨ text ≠ [] ∧ '\\' ∉ text := by
  obtain ⟨b, rfl, hlength⟩ := next_typed_followers h
  by_cases hb : b = 0x5c
  · subst hb
    rw [List.length_eq_zero_iff.mp (hlength.trans rfl)]
    exact .inl rfl
  · refine .inr ⟨Utf8.decodeLossy_ne_nil (List.cons_ne_nil _ _), fun hin => ?_⟩
    have hbyte : (0x5c : UInt8) ∈ b :: followers events :=
      (Utf8.mem_decodeLossy (c := '\\') (by decide) _).mp hin
    rcases List.mem_cons.mp hbyte with hlead | hfollows
    · exact hb hlead.symm
    · cases hunbroken _ hfollows

end Key

namespace Line

variable {setup : Setup} {l next : Line} {key : Key} {text : List Char}

/-- Enter goes on with the line just when the backslashes at its end are odd in number. -/
def Tallies (l : Line) : Prop := l.escaped = endsEscaped l.before

theorem empty_tallies : empty.Tallies := rfl

theorem endsEscaped_text (l : Line) :
    endsEscaped l.before = false ↔ Typing.backslashes l.text % 2 = 0 := by
  have hodd := Typing.endsEscaped_iff l.text
  rw [Line.text, List.reverse_reverse] at hodd
  rw [← Bool.not_eq_true, hodd, Decidable.not_not, Line.text]

theorem Tallies.type (h : l.Tallies) (htext : text = ['\\'] ∨ text ≠ [] ∧ '\\' ∉ text) :
    (l.type text).Tallies := by
  unfold Tallies Line.type
  rcases htext with rfl | ⟨hne, hplain⟩
  · show (true && !l.escaped) = endsEscaped ('\\' :: l.before)
    rw [Typing.endsEscaped_cons, h]
    rfl
  · obtain ⟨c, before, hreverse⟩ := List.exists_cons_of_ne_nil (mt List.reverse_eq_nil_iff.mp hne)
    have hc : c ≠ '\\' := by
      rintro rfl
      exact hplain (List.mem_reverse.mp (hreverse ▸ List.mem_cons_self))
    have hother : text ≠ ['\\'] := by
      rintro rfl
      exact hplain (List.mem_singleton_self _)
    dsimp only
    rw [hreverse, List.cons_append, Typing.endsEscaped_cons]
    simp [hc, hother]

/-- A backslash that a character cut short takes along is not noticed. -/
example : (Line.empty.type (Utf8.decodeLossy [0xc3, 0x5c])).escaped = false ∧
    endsEscaped (Line.empty.type (Utf8.decodeLossy [0xc3, 0x5c])).before = true := by
  decide +kernel

/-- Each key keeps the tally: Enter and a typed text by what they add, erasing and
completing by a look at the line, and all others leave both sides as they are. -/
theorem Tallies.respond {echo : List (List Char)} {notices : List Notice} (h : l.Tallies)
    (hkey : ∀ text, key = .typed text → text = ['\\'] ∨ text ≠ [] ∧ '\\' ∉ text)
    (hrespond : l.respond setup key = .edit next echo notices) : next.Tallies := by
  cases key with
  | typed text =>
    cases hrespond
    exact h.type (hkey text rfl)
  | enter =>
    unfold Line.respond at hrespond
    dsimp only at hrespond
    split at hrespond
    · cases hrespond
      exact (Typing.endsEscaped_cons '\n' l.before).symm
    · cases hrespond
  | erase =>
    cases hrespond
    -- the flag is made anew from the line that is left
    rfl
  | tab =>
    unfold Line.respond at hrespond
    dsimp only at hrespond
    split at hrespond
    · obtain ⟨_, ⟨hbell, -⟩ | ⟨rest, hrest, -⟩ | ⟨_, hlist, -⟩⟩ := l.complete_cases setup
      · cases hbell.symm.trans hrespond
        exact h
      · cases hrest.symm.trans hrespond
        rfl
      · cases hlist.symm.trans hrespond
        exact h
    · cases hrespond
      exact h.type (.inr (by decide))
  | abort reason => cases hrespond
  | idle =>
    cases hrespond
    exact h

theorem respond_finish_ok {line : String} (h : l.respond setup key = .finish (.ok line)) :
    key = .enter ∧ l.escaped = false ∧ line = String.ofList l.text := by
  cases key with
  | enter =>
    unfold Line.respond at h
    dsimp only at h
    split at h
    · cases h
    · rename_i hescaped
      cases h
      exact ⟨rfl, Bool.not_eq_true _ ▸ hescaped, rfl⟩
  | tab =>
    obtain ⟨next, echo, notices, hedit⟩ := l.respond_tab setup
    cases hedit.symm.trans h
  | typed text => cases h
  | erase => cases h
  | abort reason => cases h
  | idle => cases h

end Line

namespace Console

variable {σ : Type} [Sink σ] {setup : Setup} {line l next : Line} {console there : Console σ}

theorem turn_tallies (h : line.Tallies) (hunbroken : Key.Unbroken console.events)
    (hturn : turn setup line console = .ongoing next there) : next.Tallies := by
  obtain ⟨key, echo, notices, hkey, hrespond⟩ := turn_ongoing hturn
  refine h.respond (fun text htyped => ?_) hrespond
  rw [htyped] at hkey
  exact Key.next_typed_backslash hunbroken hkey

theorem atTurn_tallies (h : line.Tallies)
    (hunbroken : ∀ n l there, atTurn setup n line console = some (l, there) →
      Key.Unbroken there.events) {n : Nat}
    (hreach : atTurn setup n line console = some (l, there)) : l.Tallies := by
  refine atTurn_induction (P := fun l _ => l.Tallies) h ?_ hreach
  intro m here there next after hhere htallies hturn
  exact turn_tallies htallies (hunbroken m here there hhere) hturn

theorem readFrom_ok_shorter {text : String} (h : (readFrom setup line console).1 = .ok text) :
    (readFrom setup line console).2.events.length < console.events.length := by
  have hle := readFrom_length setup line console
  by_cases hnil : console.events = []
  · rw [readFrom_nil hnil] at h
    cases h
  · have hpos := List.length_pos_iff.mpr hnil
    omega

/-- Enter ends the reading with the line, and with nothing read beyond it, just when no
backslash escapes it. -/
theorem readFrom_enter {rest : List Event} (hkey : Key.next there.events = (.ok .enter, rest)) :
    readFrom setup l there = (.ok (String.ofList l.text), { there with events := rest }) ↔
      l.escaped = false := by
  cases hescaped : l.escaped with
  | false =>
    have hrespond : l.respond setup .enter = .finish (.ok (String.ofList l.text)) :=
      if_neg (by rw [hescaped]; decide)
    exact iff_of_true (readFrom_finish hkey (events_ne_nil hkey) hrespond there.notices) rfl
  | true =>
    have hrespond : l.respond setup .enter =
        .edit ⟨'\n' :: l.before, false, false⟩ [Line.newline] [] := if_pos hescaped
    refine iff_of_false (fun hread => ?_) nofun
    have hechoed : readFrom setup l there = _ := readFrom_echoed hkey hrespond there.notices
    rw [hread] at hechoed
    generalize Sink.emit there.sink ([Line.newline].map Utf8.encode) = emitted at hechoed
    rcases emitted with ⟨_ | e, left⟩
    · -- the reading that goes on takes more than the Enter
      dsimp only at hechoed
      have hless := readFrom_ok_shorter (congrArg Prod.fst hechoed.symm)
      rw [← hechoed] at hless
      exact Nat.lt_irrefl _ hless
    · cases hechoed

/-- Whatever is typed, with any names that complete it: when each turn of a reading finds
a whole character or none, it begins with a line that remembers a backslash at its end
just when the backslashes there are odd in number. So Enter finishes the line just when
they are even, and no line that is read ends in an odd number of them. -/
theorem readLine_tallies
    (hunbroken : ∀ n l there, atTurn setup n .empty console = some (l, there) →
      Key.Unbroken there.events) :
    (∀ n l there, atTurn setup n .empty console = some (l, there) →
      l.escaped = Line.endsEscaped l.before ∧
      ∀ rest, Key.next there.events = (.ok .enter, rest) →
        (readLine setup console = (.ok (String.ofList l.text), { there with events := rest }) ↔
          Typing.backslashes l.text % 2 = 0)) ∧
    ∀ text, (readLine setup console).1 = .ok text → Typing.backslashes text.toList % 2 = 0 := by
  constructor
  · intro n l there hreach
    have htallies : l.Tallies := atTurn_tallies Line.empty_tallies hunbroken hreach
    refine ⟨htallies, fun rest hkey => ?_⟩
    rw [readLine, readFrom_atTurn hreach, readFrom_enter hkey, htallies, Line.endsEscaped_text]
  · intro text htext
    obtain ⟨n, l, there, -, hreach, hfinished⟩ := exists_last_turn setup .empty console
    have htallies : l.Tallies := atTurn_tallies Line.empty_tallies hunbroken hreach
    have hresult : (readFrom setup .empty console).1 = .ok text := htext
    rw [hresult] at hfinished
    obtain ⟨e, herror⟩ | ⟨key, rest, -, hrespond⟩ := turn_finished hfinished
    · cases herror
    · obtain ⟨-, hescaped, rfl⟩ := Line.respond_finish_ok hrespond
      rw [String.toList_ofList, ← Line.endsEscaped_text, ← htallies]
      exact hescaped

theorem readLine_tallies_completed :
    let setup : Setup := ⟨"$ ", fun _ => ["a\\b", "a\\c"], true⟩
    let console : Console Recorder :=
      ⟨Keystroke.events [0x61, 0x09, 0x0d, 0xe0, 0x80, 0x80, 0x0d], Recorder.unlimited, []⟩
    (∀ n l there, atTurn setup n .empty console = some (l, there) →
      Key.Unbroken there.events) ∧
    (∃ there, atTurn setup 2 .empty console = some (⟨['\\', 'a'], true, true⟩, there)) ∧
    (∀ n l there, atTurn setup n .empty console = some (l, there) →
      l.escaped = Line.endsEscaped l.before) ∧
    ∃ text, (readLine setup console).1 = .ok text ∧ Typing.backslashes text.toList % 2 = 0 := by
  intro setup console
  have hunbroken : ∀ n l there, atTurn setup n .empty console = some (l, there) →
      Key.Unbroken there.events := by
    have hall : ∀ n < 8, ∀ s ∈ atTurn setup n .empty console, Key.Unbroken s.2.events := by
      decide +kernel
    intro n l there hreach
    have hn := atTurn_length hreach
    rw [show console.events.length = 7 from rfl] at hn
    exact hall n (by omega) (l, there) hreach
  have hsome : (readLine setup console).1.toOption.isSome := by decide +kernel
  obtain ⟨text, htext⟩ : ∃ text, (readLine setup console).1 = .ok text := by
    cases hread : (readLine setup console).1 with
    | ok text => exact ⟨text, rfl⟩
    | error e => simp [hread, Except.toOption] at hsome
  obtain ⟨hturns, hread⟩ := readLine_tallies hunbroken
  exact ⟨hunbroken, ⟨_, rfl⟩, fun n l there hreach => (hturns n l there hreach).1, text, htext,
    hread text htext⟩

end Console

end LineShell
