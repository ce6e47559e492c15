import LineShell.Proofs.LineFeeds

/-!
# Interrupted attempts

An attempt to read a byte that is interrupted is made again, wherever the byte is
needed: for a key, within a character, within an escape sequence. So a stream can be
freed of its interruptions, and no reading tells the difference.
-/

set_option autoImplicit false

namespace LineShell

namespace Key

def uninterrupted (events : List Event) : List Event := events.filter (· ≠ .interrupted)

section Stream

variable (b : UInt8) (e : OsError) (rest : List Event)

@[simp] theorem uninterrupted_byte :
    uninterrupted (.byte b :: rest) = .byte b :: uninterrupted rest := rfl

@[simp] theorem uninterrupted_interrupted :
    uninterrupted (.interrupted :: rest) = uninterrupted rest := rfl

@[simp] theorem uninterrupted_failed :
    uninterrupted (.failed e :: rest) = .failed e :: uninterrupted rest := rfl

end Stream

/-- Freed of its interruptions, a stream gives the same, and what is left of it is
freed of them as well. -/
def Undisturbed {α : Type} (attempt : List Event → Except ReadError α × List Event) : Prop :=
  ∀ events, attempt (uninterrupted events) = ((attempt events).1, uninterrupted (attempt events).2)

theorem nextByte_undisturbed : Undisturbed nextByte := by
  intro events
  fun_induction nextByte events with
  | case1 => rfl
  | case2 b rest => rw [uninterrupted_byte, nextByte]
  | case3 rest ih => rw [uninterrupted_interrupted, ih]
  | case4 e rest => rw [uninterrupted_failed, nextByte]

theorem nextBytes_undisturbed (n : Nat) : Undisturbed (nextBytes n) := by
  induction n with
  | zero => exact fun _ => rfl
  | succ n ih =>
    intro events
    rw [nextBytes, nextBytes, nextByte_undisturbed]
    rcases nextByte events with ⟨e | b, rest⟩
    · rfl
    · dsimp only
      rw [ih]
      rcases nextBytes n rest with ⟨e | bs, rest⟩
      · rfl
      · rfl

theorem skipParameters_undisturbed : Undisturbed skipParameters := by
  intro events
  fun_induction skipParameters events with
  | case1 => rfl
  | case2 rest ih => rw [uninterrupted_interrupted, ih]
  | case3 e rest => rw [uninterrupted_failed, skipParameters]
  | case4 b rest hparameter ih => rw [uninterrupted_byte, skipParameters, if_pos hparameter, ih]
  | case5 b rest hparameter hfinal =>
    rw [uninterrupted_byte, skipParameters, if_neg hparameter, if_pos hfinal]
  | case6 b rest hparameter hfinal =>
    rw [uninterrupted_byte, skipParameters, if_neg hparameter, if_neg hfinal]

theorem skipEscaped_undisturbed : Undisturbed skipEscaped := by
  intro events
  rw [skipEscaped, skipEscaped, nextByte_undisturbed]
  rcases nextByte events with ⟨e | b, rest⟩
  · rfl
  · dsimp only
    split
    · rfl
    split
    · exact skipParameters_undisturbed rest
    · rfl

theorem ofLead_undisturbed (b : UInt8) : Undisturbed (ofLead b) := by
  intro events
  unfold ofLead
  split; · rfl
  split; · rfl
  split; · rfl
  split; · rfl
  split; · rfl
  split; · exact skipEscaped_undisturbed events
  split; · rfl
  rw [nextBytes_undisturbed]
  rcases nextBytes (Utf8.announced b) events with ⟨e | bs, rest⟩
  · rfl
  · rfl

theorem next_undisturbed : Undisturbed next := by
  intro events
  rw [next, next, nextByte_undisturbed]
  rcases nextByte events with ⟨e | b, rest⟩
  · rfl
  · exact ofLead_undisturbed b rest

end Key

namespace Console

variable {σ : Type}

def uninterrupted (console : Console σ) : Console σ :=
  { console with events := Key.uninterrupted console.events }

/-- What comes of readings one after another from one stream, each with a setup and a sink
of its own: the result, the sink that is left and what was noted. -/
def readEach [Sink σ] (events : List Event) :
    List (Setup × σ) → List (Except ReadError String × σ × List Notice)
  | [] => []
  | (setup, sink) :: readings =>
    let read := readLine setup ⟨events, sink, []⟩
    (read.1, read.2.sink, read.2.notices) :: readEach read.2.events readings

section Readings

variable [Sink σ]

/-- One reading, whatever was typed of the line before. Each key is the same, so the line
and the sink go through the same states. -/
theorem readFrom_uninterrupted (setup : Setup) (line : Line) (console : Console σ) :
    readFrom setup line console.uninterrupted =
      ((readFrom setup line console).1, (readFrom setup line console).2.uninterrupted) := by
  fun_induction readFrom setup line console with
  | case1 line console hnil =>
    rw [readFrom_nil (by rw [uninterrupted, hnil]; rfl)]
  | case2 line console hne rest e hkey =>
    have hnext := Key.next_undisturbed console.events
    rw [hkey] at hnext
    exact readFrom_error hnext console.notices
  | case3 line console hne rest key hkey result hrespond =>
    have hnext := Key.next_undisturbed console.events
    rw [hkey] at hnext
    exact readFrom_finish hnext (events_ne_nil hnext) hrespond console.notices
  | case4 line console hne rest key hkey next echo notices hrespond sink later e =>
    rename_i hemit
    have hnext := Key.next_undisturbed console.events
    rw [hkey] at hnext
    rw [uninterrupted, readFrom_echoed hnext hrespond, hemit]
    rfl
  | case5 line console hne rest key hkey next echo notices hrespond sink later hemit ih =>
    have hnext := Key.next_undisturbed console.events
    rw [hkey] at hnext
    rw [uninterrupted, readFrom_echoed hnext hrespond, hemit]
    exact ih

theorem readLine_uninterrupted (setup : Setup) (console : Console σ) :
    readLine setup console.uninterrupted =
      ((readLine setup console).1, (readLine setup console).2.uninterrupted) :=
  readFrom_uninterrupted setup .empty console

theorem readTimes_uninterrupted (setup : Setup) (n : Nat) (console : Console σ) :
    readTimes setup n console.uninterrupted = (readTimes setup n console).uninterrupted := by
  induction n generalizing console with
  | zero => rfl
  | succ n ih =>
    rw [readTimes, readTimes, readLine_uninterrupted]
    exact ih _

/-- Interruptions are invisible: without them every reading from a stream has the same
result, echo and notices, when each has a setup and a sink of its own and when all of them
share both, and what is left for the next reading is the same but for the interruptions. -/
theorem readEach_uninterrupted (events : List Event) :
    (∀ readings : List (Setup × σ),
      readEach (Key.uninterrupted events) readings = readEach events readings) ∧
    ∀ (setup : Setup) (n : Nat) (sink : σ) (notices : List Notice),
      let reached := readTimes setup n ⟨events, sink, notices⟩
      let calm := readTimes setup n ⟨Key.uninterrupted events, sink, notices⟩
      (calm.readLine setup).1 = (reached.readLine setup).1 ∧
        calm.sink = reached.sink ∧ calm.notices = reached.notices ∧
        calm.events = Key.uninterrupted reached.events := by
  constructor
  · intro readings
    induction readings generalizing events with
    | nil => rfl
    | cons reading readings ih =>
      have hread := readLine_uninterrupted reading.1 ⟨events, reading.2, []⟩
      rw [uninterrupted] at hread
      rw [readEach, readEach, hread, List.cons.injEq]
      exact ⟨rfl, ih _⟩
  · intro setup n sink notices reached calm
    have hcalm : calm = reached.uninterrupted :=
      readTimes_uninterrupted setup n ⟨events, sink, notices⟩
    rw [hcalm]
    exact ⟨by rw [readLine_uninterrupted], rfl, rfl, rfl⟩

end Readings

end Console

end LineShell
