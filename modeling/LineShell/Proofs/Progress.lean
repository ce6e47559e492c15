import LineShell.Proofs.AltKeys
import LineShell.Proofs.Interruptions
import LineShell.Proofs.Rounds
import LineShell.Proofs.Turns

/-!
# Progress

A reading comes to its end whatever the stream holds, and takes something from it
unless nothing is left. So a session that reads line after line comes to its end as
well: it cannot read more often than there are events, but for the once that finds none.
-/

set_option autoImplicit false

namespace LineShell

theorem Key.next_exhausted {events : List Event} (h : uninterrupted events = []) :
    next events = (.error (.abort .endOfInput), []) := by
  have hcalm := next_undisturbed events
  rw [h] at hcalm
  have hresult : (next events).1 = .error (.abort .endOfInput) := (congrArg Prod.fst hcalm).symm
  exact Prod.ext hresult (next_ends events .endOfInput hresult)

namespace Console

variable {σ : Type} [Sink σ]

/-- A reading gets on: it has its result after some turns, and every byte that led one of
them was taken and led no other. -/
structure Progresses (setup : Setup) (console : Console σ) : Prop where
  ends : ∃ n l there, n ≤ console.events.length ∧
    atTurn setup n .empty console = some (l, there) ∧
      turn setup l there = .finished (readLine setup console).1 (readLine setup console).2
  takes : console.events = [] ∨
    (readLine setup console).2.events.length < console.events.length
  exhausted : Key.uninterrupted console.events = [] →
    readLine setup console = (.error (.abort .endOfInput), { console with events := [] })
  taken : ∀ n b rest, leadAt setup n console = some (b, rest) →
    .byte b :: rest <:+ console.events ∧ (readLine setup console).2.events <:+ rest
  once : ∀ m n b d rest later, m < n → leadAt setup m console = some (b, rest) →
    leadAt setup n console = some (d, later) → .byte d :: later <:+ rest

theorem progresses (setup : Setup) (console : Console σ) : Progresses setup console where
  ends := exists_last_turn setup .empty console
  takes := by
    by_cases hnil : console.events = []
    · exact .inl hnil
    · have hle := readFrom_length setup .empty console
      have hpos := List.length_pos_iff.mpr hnil
      rw [readLine]
      omega
  exhausted h := readFrom_error (Key.next_exhausted h) console.notices
  taken _ _ _ h := leadAt_taken h
  once _ _ _ _ _ _ hmn hfirst hsecond := leadAt_later hmn hfirst hsecond

end Console

namespace Shell

namespace Reader

/-- A session that reads so many times comes to an outcome. Each time one line is read, or
none where the prompt before it is refused. -/
inductive Reads (read : Reader) : Nat → Shell → List Event → Outcome → Shell → Prop
  | ended {sh last : Shell} {events rest : List Event} {outcome : Outcome}
      (hread : read sh events = (.error outcome, rest, last)) : Reads read 1 sh events outcome last
  | left {sh ready last : Shell} {events rest : List Event} {line : String} {status : Int}
      (hread : read sh events = (.ok line, rest, ready))
      (hrun : ready.runLine line = (.leave status, last)) : Reads read 1 sh events (.ok status) last
  | goOn {n : Nat} {sh ready after last : Shell} {events rest : List Event} {line : String}
      {status : Int} {outcome : Outcome} (hread : read sh events = (.ok line, rest, ready))
      (hrun : ready.runLine line = (.goOn status, after))
      (hrest : Reads read n after rest outcome last) : Reads read (n + 1) sh events outcome last

/-- Every reading but the last takes an event. -/
theorem run_reads {read : Reader} (shorter : read.Shortens) (sh : Shell) (events : List Event) :
    ∃ n ≤ events.length + 1,
      read.Reads n sh events (read.run shorter sh events).1 (read.run shorter sh events).2 := by
  induction hlength : events.length using Nat.strongRecOn generalizing sh events with
  | ind k ih =>
    rcases hread : read sh events with ⟨outcome | line, rest, ready⟩
    · rw [(ends shorter hread).1]
      exact ⟨1, Nat.le_add_left 1 k, .ended hread⟩
    · rcases hrun : ready.runLine line with ⟨status | status, after⟩
      · have hless : rest.length < events.length :=
          shorter sh events rest (by simp only [turn, hread, hrun, afterFlow])
        rw [hlength] at hless
        obtain ⟨n, hn, hrest⟩ := ih _ hless after rest rfl
        rw [(goOn shorter hread hrun).1]
        exact ⟨n + 1, Nat.succ_le_succ (Nat.le_trans hn hless), .goOn hread hrun hrest⟩
      · rw [(left shorter hread hrun).1]
        exact ⟨1, Nat.le_add_left 1 k, .left hread hrun⟩

end Reader

/-- Every reading makes progress, whatever the stream holds and wherever the echo goes.
So a session of either kind comes to its outcome, and reads a line at most once more
than there are events. -/
theorem readings_progress :
    (∀ (σ : Type) [Sink σ] (setup : Setup) (console : Console σ),
      Console.Progresses setup console) ∧
    ∀ (sh : Shell) (events : List Event),
      (∃ n ≤ events.length + 1,
        batchReader.Reads n sh events (sh.runBatch events).1 (sh.runBatch events).2) ∧
      ∃ n ≤ events.length + 1,
        interactiveReader.Reads n sh events (sh.runInteractive events).1
          (sh.runInteractive events).2 := by
  refine ⟨fun σ _ setup console => Console.progresses setup console, fun sh events => ?_⟩
  rw [runBatch_reads, runInteractive_reads]
  exact ⟨Reader.run_reads batchReader_shortens sh events,
    Reader.run_reads interactiveReader_shortens sh events⟩

end Shell

end LineShell
