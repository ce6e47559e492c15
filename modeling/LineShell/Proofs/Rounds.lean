import LineShell.Proofs.Batch
import LineShell.Proofs.Earlier
import LineShell.Proofs.Truncation

/-!
# Rounds

A session reads a line and runs it, round after round, until a line leaves or no
line comes. Its turns differ in how the line is read. A loop whose reading follows
that of a session runs the same rounds.
-/

set_option autoImplicit false

namespace LineShell

/-! ## Reading without TAB -/

namespace Key

end Key

namespace Console

variable {σ τ : Type} [Sink σ] [Sink τ] {P : Bytes → σ → Prop} {Q : Bytes → τ → Prop}

end Console

/-! ## Loops that read and run -/

/-- A line that was run, with the shell before it, the echo of its keys and the output
that it added. -/
structure Round where
  before : Shell
  line : String
  echo : Bytes
  output : Bytes

/-- How a loop ends. Of a line that is not finished, the echo is left. -/
inductive Ending where
  | left (status : Int)
  | aborted (reason : Abort) (echo : Bytes)
  | failed (cause : OsError) (echo : Bytes)

/-- What a loop shows of a reading, besides the output of the line. -/
abbrev Frame := Except ReadError String → Bytes → Bytes

namespace Ending

def outcome : Ending → Shell.Outcome
  | left status => .ok status
  | aborted reason _ => .ok (Shell.abortStatus reason)
  | failed cause _ => .error cause

def framed (frame : Frame) : Ending → Bytes
  | left _ => []
  | aborted reason echo => frame (.error (.abort reason)) echo
  | failed cause echo => frame (.error (.io cause)) echo

end Ending

namespace Shell

def verdict : Except ReadError String → Except Outcome String
  | .ok line => .ok line
  | .error (.abort reason) => .error (.ok (abortStatus reason))
  | .error (.io cause) => .error (.error cause)

abbrev Reader := Shell → List Event → Except Outcome String × List Event × Shell

namespace Reader

def turn (read : Reader) (sh : Shell) (events : List Event) : Turn × Shell :=
  match read sh events with
  | (.error outcome, _, sh) => (.over outcome, sh)
  | (.ok line, rest, sh) =>
    let (flow, sh) := sh.runLine line
    (afterFlow rest flow, sh)

def Shortens (read : Reader) : Prop := ∀ (sh : Shell) (events rest : List Event),
  (read.turn sh events).1 = .next rest → rest.length < events.length

def run (read : Reader) (shorter : read.Shortens) : Shell → List Event → Outcome × Shell :=
  takeTurns read.turn (shorter _ _ _)

def lines (read : Reader) (shorter : read.Shortens) (sh : Shell) (events : List Event) :
    List String :=
  match (read sh events).1 with
  | .error _ => []
  | .ok line =>
    match _h : (read.turn sh events).1 with
    | .over _ => [line]
    | .next rest => line :: lines read shorter (read.turn sh events).2 rest
termination_by events.length
decreasing_by exact shorter _ _ _ _h

section Turns

variable {read : Reader} (shorter : read.Shortens) {sh next after : Shell}
  {events rest : List Event} {line : String}

theorem ends {outcome : Outcome} (h : read sh events = (.error outcome, rest, next)) :
    read.run shorter sh events = (outcome, next) ∧ read.lines shorter sh events = [] := by
  constructor
  · apply takeTurns_over
    simp only [turn, h]
  · unfold lines
    simp only [h]

theorem left {status : Int} (h : read sh events = (.ok line, rest, next))
    (hrun : next.runLine line = (.leave status, after)) :
    read.run shorter sh events = (.ok status, after) ∧
      read.lines shorter sh events = [line] := by
  have hturn : read.turn sh events = (.over (.ok status), after) := by
    simp only [turn, h, hrun, afterFlow]
  constructor
  · exact takeTurns_over hturn
  · unfold lines
    simp only [h]
    split
    · rfl
    · simp_all

theorem goOn {status : Int} (h : read sh events = (.ok line, rest, next))
    (hrun : next.runLine line = (.goOn status, after)) :
    read.run shorter sh events = read.run shorter after rest ∧
      read.lines shorter sh events = line :: read.lines shorter after rest := by
  have hturn : read.turn sh events = (.next rest, after) := by
    simp only [turn, h, hrun, afterFlow]
  constructor
  · exact takeTurns_next hturn
  · rw [lines.eq_def]
    simp only [h]
    split
    · rename_i hover
      rw [hturn] at hover
      cases hover
    · rename_i hnext
      rw [hturn] at hnext ⊢
      cases hnext
      rfl

end Turns

end Reader

def batchReader : Reader := fun sh events =>
  let (result, console) := Console.readLine sh.plain (⟨events, (), []⟩ : Console Unit)
  (verdict result, console.events, sh)

def interactiveReader : Reader := fun sh events =>
  let (result, rest, sh) := sh.readAtTerminal events
  match result with
  | .error (.io cause) => (.error (.error cause), rest, sh)
  | .error (.abort reason) =>
    match sh.display lineBreak with
    | (some cause, sh) => (.error (.error cause), rest, sh)
    | (none, sh) => (.error (.ok (abortStatus reason)), rest, sh)
  | .ok line =>
    match sh.display lineBreak with
    | (some cause, sh) => (.error (.error cause), rest, sh)
    | (none, sh) => (.ok line, rest, sh)

theorem batchTurn_reads : batchTurn = batchReader.turn := by
  funext sh events
  unfold batchTurn Reader.turn batchReader
  rcases Console.readLine sh.plain (⟨events, (), []⟩ : Console Unit) with
    ⟨(reason | cause) | line, console⟩
  · rfl
  · rfl
  · rfl

theorem interactiveTurn_reads : interactiveTurn = interactiveReader.turn := by
  funext sh events
  unfold interactiveTurn Reader.turn interactiveReader
  rcases sh.readAtTerminal events with ⟨(reason | cause) | line, rest, sh⟩
  · dsimp only
    rcases sh.display lineBreak with ⟨_ | cause, sh⟩
    · rfl
    · rfl
  · rfl
  · dsimp only
    rcases sh.display lineBreak with ⟨_ | cause, sh⟩
    · rfl
    · rfl

theorem batchReader_shortens : batchReader.Shortens := by
  intro _ _ _ h
  rw [← batchTurn_reads] at h
  exact batchTurn_length h

theorem interactiveReader_shortens : interactiveReader.Shortens := by
  intro _ _ _ h
  rw [← interactiveTurn_reads] at h
  exact interactiveTurn_length h

theorem takeTurns_reads {turn : Shell → List Event → Turn × Shell} {read : Reader}
    (shorter : ∀ {sh : Shell} {events rest : List Event},
      (turn sh events).1 = .next rest → rest.length < events.length)
    (h : turn = read.turn) (shorter' : read.Shortens) :
    takeTurns turn shorter = read.run shorter' := by
  subst h
  rfl

theorem runBatch_reads : runBatch = batchReader.run batchReader_shortens :=
  takeTurns_reads batchTurn_length batchTurn_reads batchReader_shortens

theorem runInteractive_reads : runInteractive = interactiveReader.run interactiveReader_shortens :=
  takeTurns_reads interactiveTurn_length interactiveTurn_reads interactiveReader_shortens

/-! ## What a session reads and runs -/

/-- One reading with the names that the shell offers, its echo on a recorder. -/
def typed (sh : Shell) (events : List Event) : Except ReadError String × Console Recorder :=
  Console.readLine sh.editing ⟨events, Recorder.unlimited, []⟩

/-- The rounds that a shell runs on a stream, each on the shell that the one before it
left, how they end and what shell is left at last. -/
inductive Plays : Shell → List Event → List Round → Ending → Shell → Prop
  | aborted {sh : Shell} {events : List Event} {reason : Abort} {console : Console Recorder}
      (hread : sh.typed events = (.error (.abort reason), console)) :
      Plays sh events [] (.aborted reason console.sink.kept.bytes) sh
  | failed {sh : Shell} {events : List Event} {cause : OsError} {console : Console Recorder}
      (hread : sh.typed events = (.error (.io cause), console)) :
      Plays sh events [] (.failed cause console.sink.kept.bytes) sh
  | left {sh last : Shell} {events : List Event} {line : String} {console : Console Recorder}
      {status : Int} {output : Bytes} (hread : sh.typed events = (.ok line, console))
      (hrun : sh.runLine line = (.leave status, last)) (hshown : last.shown = sh.shown ++ output) :
      Plays sh events [⟨sh, line, console.sink.kept.bytes, output⟩] (.left status) last
  | goOn {sh after last : Shell} {events : List Event} {line : String}
      {console : Console Recorder} {status : Int} {output : Bytes} {rounds : List Round}
      {ending : Ending} (hread : sh.typed events = (.ok line, console))
      (hrun : sh.runLine line = (.goOn status, after))
      (hshown : after.shown = sh.shown ++ output)
      (hrest : Plays after console.events rounds ending last) :
      Plays sh events (⟨sh, line, console.sink.kept.bytes, output⟩ :: rounds) ending last

theorem typed_suffix {sh : Shell} {events : List Event} {result : Except ReadError String}
    {console : Console Recorder} (h : sh.typed events = (result, console)) :
    console.events <:+ events := by
  have hsuffix := Console.readFrom_suffix sh.editing .empty
    (⟨events, Recorder.unlimited, []⟩ : Console Recorder)
  rw [show Console.readFrom sh.editing .empty (⟨events, Recorder.unlimited, []⟩ : Console Recorder) =
    _ from h] at hsuffix
  exact hsuffix

namespace Plays

variable {sh last : Shell} {events : List Event} {rounds : List Round} {ending : Ending}

end Plays

/-- The reader reads what `typed` reads and shows it in a frame, on shells that are
related to those of the rounds. A line that is free to run keeps them related. -/
structure Follows (read : Reader) (R : Shell → Shell → Prop) (Free : Shell → String → Prop)
    (frame : Frame) : Prop where
  reads {sh sh' : Shell} {events : List Event} {result : Except ReadError String}
    {console : Console Recorder} : R sh sh' → .byte Key.horizontalTab ∉ events →
    sh.typed events = (result, console) →
    ∃ next, read sh' events = (verdict result, console.events, next) ∧ R sh next ∧
      next.shown = sh'.shown ++ frame result console.sink.kept.bytes
  runs {sh sh' after : Shell} {flow : Flow} {output : Bytes} {line : String} : R sh sh' →
    Free sh line → sh.runLine line = (flow, after) → after.shown = sh.shown ++ output →
    ∃ after', sh'.runLine line = (flow, after') ∧ R after after' ∧
      after'.shown = sh'.shown ++ output

/-- A loop with such a reader runs the rounds, each with its frame before its output. -/
theorem Follows.run {read : Reader} {R : Shell → Shell → Prop} {Free : Shell → String → Prop}
    {frame : Frame} (hread : Follows read R Free frame) (shorter : read.Shortens) {sh last : Shell}
    {events : List Event} {rounds : List Round} {ending : Ending}
    (h : sh.Plays events rounds ending last) (htab : .byte Key.horizontalTab ∉ events)
    (hfree : ∀ r ∈ rounds, Free r.before r.line) {sh' : Shell} (hsh : R sh sh') :
    ∃ last', read.run shorter sh' events = (ending.outcome, last') ∧
      read.lines shorter sh' events = rounds.map Round.line ∧ R last last' ∧
      last'.shown = sh'.shown ++ rounds.flatMap (fun r => frame (.ok r.line) r.echo ++ r.output) ++
        ending.framed frame := by
  -- along the rounds; in each of them both shells read, and then both run the same line
  induction h generalizing sh' with
  | aborted htyped | failed htyped =>
    obtain ⟨next, hnext, hkept, hshown⟩ := hread.reads hsh htab htyped
    obtain ⟨hrun, hlines⟩ := Reader.ends shorter hnext
    exact ⟨next, hrun, hlines, hkept, by simpa [Ending.framed] using hshown⟩
  | left htyped hline hshown =>
    obtain ⟨next, hnext, hkept, hframe⟩ := hread.reads hsh htab htyped
    obtain ⟨last', hline', hlast, houtput⟩ :=
      hread.runs hkept (hfree _ List.mem_cons_self) hline hshown
    obtain ⟨hrun, hlines⟩ := Reader.left shorter hnext hline'
    refine ⟨last', hrun, hlines, hlast, ?_⟩
    rw [houtput, hframe]
    simp [Ending.framed]
  | goOn htyped hline hshown hrest ih =>
    obtain ⟨next, hnext, hkept, hframe⟩ := hread.reads hsh htab htyped
    obtain ⟨after', hline', hafter, houtput⟩ :=
      hread.runs hkept (hfree _ List.mem_cons_self) hline hshown
    obtain ⟨hrun, hlines⟩ := Reader.goOn shorter hnext hline'
    obtain ⟨last', hothers, hmore, hlast, hall⟩ :=
      ih (fun hmem => htab ((typed_suffix htyped).subset hmem))
        (fun r hr => hfree r (List.mem_cons_of_mem _ hr)) hafter
    refine ⟨last', hrun.trans hothers, by rw [hlines, hmore]; rfl, hlast, ?_⟩
    rw [hall, houtput, hframe]
    simp [List.append_assoc]

end Shell

end LineShell
