import LineShell.Proofs.Truncation

/-!
# Turns of a reading

A reading takes turns, one for each key. The first byte of the stream leads the key:
by it a turn decides what else it takes. What comes later leads at later turns or not at
all, also a byte that cut an escape sequence short and went back. So no byte leads twice,
and there are no more turns than events, but for the one that finds no byte.
-/

set_option autoImplicit false

namespace LineShell

namespace Key

theorem next_suffix_of_lead {events rest : List Event} {b : UInt8}
    (h : nextByte events = (.ok b, rest)) : (next events).2 <:+ rest := by
  rw [next, h]
  exact ofLead_suffix b rest

theorem nextByte_ok_suffix {events rest : List Event} {b : UInt8}
    (h : nextByte events = (.ok b, rest)) : .byte b :: rest <:+ events := by
  obtain ⟨idle, rfl, -⟩ := nextByte_ok h
  exact List.suffix_append idle _

end Key

namespace Console

inductive Turn (σ : Type) where
  | finished (result : Except ReadError String) (console : Console σ)
  | ongoing (line : Line) (console : Console σ)

variable {σ : Type}

def Turn.console : Turn σ → Console σ
  | finished _ console => console
  | ongoing _ console => console

section Readings

variable [Sink σ]

def turn (setup : Setup) (line : Line) (console : Console σ) : Turn σ :=
  match Key.next console.events with
  | (.error e, rest) => .finished (.error e) { console with events := rest }
  | (.ok key, rest) =>
    match line.respond setup key with
    | .finish result => .finished result { console with events := rest }
    | .edit line echo notices =>
      match Sink.emit console.sink (echo.map Utf8.encode) with
      | (some e, sink) => .finished (.error (.io e)) ⟨rest, sink, console.notices ++ notices⟩
      | (none, sink) => .ongoing line ⟨rest, sink, console.notices ++ notices⟩

/-- The line and the console that a turn begins with, if the reading comes to it. -/
def atTurn (setup : Setup) : Nat → Line → Console σ → Option (Line × Console σ)
  | 0, line, console => some (line, console)
  | n + 1, line, console =>
    match turn setup line console with
    | .finished _ _ => none
    | .ongoing line console => atTurn setup n line console

def leadAt (setup : Setup) (n : Nat) (console : Console σ) : Option (UInt8 × List Event) :=
  match atTurn setup n .empty console with
  | none => none
  | some (_, there) =>
    match Key.nextByte there.events with
    | (.error _, _) => none
    | (.ok b, rest) => some (b, rest)

variable {setup : Setup} {line l next : Line} {console there after : Console σ} {m n : Nat}

/-! ## One turn -/

inductive Turned (setup : Setup) (line : Line) (console : Console σ) : Turn σ → Prop
  | keyless {e : ReadError} {rest : List Event}
      (hkey : Key.next console.events = (.error e, rest)) :
      Turned setup line console (.finished (.error e) { console with events := rest })
  | ended {key : Key} {rest : List Event} {result : Except ReadError String}
      (hkey : Key.next console.events = (.ok key, rest))
      (hrespond : line.respond setup key = .finish result) :
      Turned setup line console (.finished result { console with events := rest })
  | refused {key : Key} {rest : List Event} {next : Line} {echo : List (List Char)}
      {notices : List Notice} {e : OsError} {sink : σ}
      (hkey : Key.next console.events = (.ok key, rest))
      (hrespond : line.respond setup key = .edit next echo notices)
      (hemit : Sink.emit console.sink (echo.map Utf8.encode) = (some e, sink)) :
      Turned setup line console
        (.finished (.error (.io e)) ⟨rest, sink, console.notices ++ notices⟩)
  | echoed {key : Key} {rest : List Event} {next : Line} {echo : List (List Char)}
      {notices : List Notice} {sink : σ} (hkey : Key.next console.events = (.ok key, rest))
      (hrespond : line.respond setup key = .edit next echo notices)
      (hemit : Sink.emit console.sink (echo.map Utf8.encode) = (none, sink)) :
      Turned setup line console (.ongoing next ⟨rest, sink, console.notices ++ notices⟩)

theorem turn_turned (setup : Setup) (line : Line) (console : Console σ) :
    Turned setup line console (turn setup line console) := by
  unfold turn
  rcases hkey : Key.next console.events with ⟨e | key, rest⟩
  · exact .keyless hkey
  · dsimp only
    cases hrespond : line.respond setup key with
    | finish result => exact .ended hkey hrespond
    | edit next echo notices =>
      dsimp only
      rcases hemit : Sink.emit console.sink (echo.map Utf8.encode) with ⟨_ | e, sink⟩
      · exact .echoed hkey hrespond hemit
      · exact .refused hkey hrespond hemit

theorem Turned.events {turned : Turn σ} (h : Turned setup line console turned) :
    turned.console.events = (Key.next console.events).2 := by
  cases h with
  | keyless hkey | ended hkey | refused hkey | echoed hkey =>
    rw [hkey]
    rfl

theorem turn_finished {result : Except ReadError String}
    (h : turn setup line console = .finished result after) :
    (∃ e, result = .error e) ∨ ∃ key rest, Key.next console.events = (.ok key, rest) ∧
      line.respond setup key = .finish result := by
  have hturned := turn_turned setup line console
  rw [h] at hturned
  cases hturned with
  | keyless => exact .inl ⟨_, rfl⟩
  | ended hkey hrespond => exact .inr ⟨_, _, hkey, hrespond⟩
  | refused => exact .inl ⟨_, rfl⟩

theorem turn_ongoing (h : turn setup line console = .ongoing next there) :
    ∃ key echo notices, Key.next console.events = (.ok key, there.events) ∧
      line.respond setup key = .edit next echo notices := by
  have hturned := turn_turned setup line console
  rw [h] at hturned
  cases hturned with
  | echoed hkey hrespond => exact ⟨_, _, _, hkey, hrespond⟩

theorem turn_shorter (h : turn setup line console = .ongoing next there) :
    there.events.length < console.events.length := by
  obtain ⟨key, echo, notices, hkey, -⟩ := turn_ongoing h
  have hless := Key.next_length (events_ne_nil hkey)
  rwa [hkey] at hless

/-- A reading is its first turn, and the turns after that. -/
theorem readFrom_turn (setup : Setup) (line : Line) (console : Console σ) :
    readFrom setup line console =
      match turn setup line console with
      | .finished result after => (result, after)
      | .ongoing next there => readFrom setup next there := by
  have hturned := turn_turned setup line console
  generalize turn setup line console = turned at hturned ⊢
  cases hturned with
  | keyless hkey => exact readFrom_error hkey console.notices
  | ended hkey hrespond => exact readFrom_finish hkey (events_ne_nil hkey) hrespond console.notices
  | refused hkey hrespond hemit | echoed hkey hrespond hemit =>
    have hechoed : readFrom setup line console = _ := readFrom_echoed hkey hrespond console.notices
    rw [hechoed, hemit]

/-! ## Turn after turn -/

theorem atTurn_succ (h : turn setup line console = .ongoing next there) (n : Nat) :
    atTurn setup (n + 1) line console = atTurn setup n next there := by
  rw [atTurn, h]

theorem atTurn_of_succ {s : Line × Console σ}
    (h : atTurn setup (n + 1) line console = some s) :
    ∃ next there, turn setup line console = .ongoing next there ∧
      atTurn setup n next there = some s := by
  rw [atTurn] at h
  rcases hturn : turn setup line console with ⟨result, after⟩ | ⟨next, there⟩ <;> rw [hturn] at h
  · cases h
  · exact ⟨next, there, rfl, h⟩

theorem atTurn_add (setup : Setup) (m n : Nat) (line : Line) (console : Console σ) :
    atTurn setup (m + n) line console =
      (atTurn setup m line console).bind fun s => atTurn setup n s.1 s.2 := by
  induction m generalizing line console with
  | zero =>
    rw [Nat.zero_add]
    rfl
  | succ m ih =>
    rw [Nat.succ_add, atTurn, atTurn]
    rcases turn setup line console with ⟨result, after⟩ | ⟨next, there⟩
    · rfl
    · exact ih next there

/-- What each turn of a reading keeps, holds wherever the reading comes to. -/
theorem atTurn_induction {P : Line → Console σ → Prop} (hfirst : P line console)
    (hstep : ∀ m l there next after, atTurn setup m line console = some (l, there) → P l there →
      turn setup l there = .ongoing next after → P next after)
    (h : atTurn setup n line console = some (l, there)) : P l there := by
  induction n generalizing l there with
  | zero =>
    cases h
    exact hfirst
  | succ n ih =>
    rw [atTurn_add] at h
    obtain ⟨⟨before, here⟩, hbefore, hlast⟩ := Option.bind_eq_some_iff.mp h
    obtain ⟨next, after, hturn, hthere⟩ := atTurn_of_succ hlast
    cases hthere
    exact hstep n before here l there hbefore (ih hbefore) hturn

theorem atTurn_suffix (h : atTurn setup n line console = some (l, there)) :
    there.events <:+ console.events := by
  refine atTurn_induction (P := fun _ there => there.events <:+ console.events) List.suffix_rfl
    (fun m l there next after _ hsuffix hturn => ?_) h
  obtain ⟨key, echo, notices, hkey, -⟩ := turn_ongoing hturn
  have hrest := Key.next_suffix there.events
  rw [hkey] at hrest
  exact hrest.trans hsuffix

theorem atTurn_length (h : atTurn setup n line console = some (l, there)) :
    there.events.length + n ≤ console.events.length := by
  induction n generalizing line console with
  | zero =>
    cases h
    exact Nat.le_refl _
  | succ n ih =>
    obtain ⟨next, middle, hturn, hlater⟩ := atTurn_of_succ h
    have hrest := ih hlater
    have hfirst := turn_shorter hturn
    omega

theorem readFrom_atTurn (h : atTurn setup n line console = some (l, there)) :
    readFrom setup line console = readFrom setup l there := by
  refine atTurn_induction (P := fun l there => readFrom setup line console = readFrom setup l there)
    rfl (fun m l there next after _ hread hturn => ?_) h
  rw [hread, readFrom_turn, hturn]

theorem exists_last_turn (setup : Setup) (line : Line) (console : Console σ) :
    ∃ n l there, n ≤ console.events.length ∧ atTurn setup n line console = some (l, there) ∧
      turn setup l there =
        .finished (readFrom setup line console).1 (readFrom setup line console).2 := by
  induction hlength : console.events.length using Nat.strongRecOn generalizing line console with
  | ind k ih =>
    cases hturn : turn setup line console with
    | finished result after =>
      refine ⟨0, line, console, Nat.zero_le k, rfl, ?_⟩
      rw [readFrom_turn, hturn]
    | ongoing next there =>
      have hless := turn_shorter hturn
      rw [hlength] at hless
      obtain ⟨n, l, last, hn, hreach, hfinished⟩ := ih _ hless next there rfl
      refine ⟨n + 1, l, last, Nat.lt_of_le_of_lt hn hless, ?_, ?_⟩
      · rw [atTurn_succ hturn, hreach]
      · rw [hfinished, readFrom_turn setup line console, hturn]

/-! ## Bytes that lead -/

variable {b d : UInt8} {rest later : List Event}

theorem leadAt_eq_some : leadAt setup n console = some (b, rest) ↔
    ∃ l there, atTurn setup n .empty console = some (l, there) ∧
      Key.nextByte there.events = (.ok b, rest) := by
  unfold leadAt
  rcases atTurn setup n .empty console with _ | ⟨l, there⟩
  · simp
  · simp only [Option.some.injEq, Prod.mk.injEq]
    constructor
    · rcases hlead : Key.nextByte there.events with ⟨e | d, tail⟩
      · simp
      · rintro ⟨⟩
        exact ⟨l, there, ⟨rfl, rfl⟩, hlead⟩
    · rintro ⟨_, _, ⟨rfl, rfl⟩, hlead⟩
      rw [hlead]

theorem atTurn_suffix_of_lead (hmn : m < n) (hlead : leadAt setup m console = some (b, rest))
    (h : atTurn setup n .empty console = some (l, there)) : there.events <:+ rest := by
  obtain ⟨_, here, hhere, hbyte⟩ := leadAt_eq_some.mp hlead
  obtain ⟨k, rfl⟩ := Nat.exists_eq_add_of_lt hmn
  rw [Nat.add_assoc, atTurn_add, hhere] at h
  obtain ⟨next, middle, hturn, hlater⟩ := atTurn_of_succ h
  obtain ⟨key, echo, notices, hkey, -⟩ := turn_ongoing hturn
  have htaken := Key.next_suffix_of_lead hbyte
  rw [hkey] at htaken
  exact (atTurn_suffix hlater).trans htaken

theorem leadAt_later (hmn : m < n) (hfirst : leadAt setup m console = some (b, rest))
    (hsecond : leadAt setup n console = some (d, later)) : .byte d :: later <:+ rest := by
  obtain ⟨l, there, hreach, hbyte⟩ := leadAt_eq_some.mp hsecond
  exact (Key.nextByte_ok_suffix hbyte).trans (atTurn_suffix_of_lead hmn hfirst hreach)

/-- Two escape sequences, the first cut short by the second and that one by Ctrl-C. -/
example : (List.range 4).map (fun n => (leadAt ⟨"", fun _ => [], false⟩ n
      (⟨Keystroke.events [0x1b, 0x1b, 0x5b, 0x31, 0x03], (), []⟩ : Console Unit)).map Prod.fst) =
    [some 0x1b, some 0x1b, some 0x03, none] := by
  decide +kernel

theorem leadAt_taken (h : leadAt setup n console = some (b, rest)) :
    .byte b :: rest <:+ console.events ∧ (readLine setup console).2.events <:+ rest := by
  obtain ⟨l, there, hreach, hbyte⟩ := leadAt_eq_some.mp h
  refine ⟨(Key.nextByte_ok_suffix hbyte).trans (atTurn_suffix hreach), ?_⟩
  have htaken := Key.next_suffix_of_lead hbyte
  rw [← (turn_turned setup l there).events] at htaken
  rw [readLine, readFrom_atTurn hreach, readFrom_turn]
  generalize turn setup l there = turned at htaken ⊢
  rcases turned with ⟨result, after⟩ | ⟨next, middle⟩
  · exact htaken
  · exact (readFrom_suffix setup next middle).trans htaken

end Readings

end Console

end LineShell
