import LineShell.Proofs.Typing
import LineShell.Shell

/-!
# Batches of lines

A batch of plain lines is run line by line. Each turn reads one line and no byte
beyond its end, so that nothing but the shell itself passes from a line to the
next, and what stands after a line that leaves is never looked at.
-/

set_option autoImplicit false

namespace LineShell
open Keystroke

/-- A line that arrives as it was written: it has no control characters besides
TAB, and its end is not escaped. -/
structure TextLine (line : String) : Prop where
  printable : ∀ c ∈ line.toList, c = '\t' ∨ (0x20 ≤ c.toNat ∧ c.toNat ≠ 0x7f)
  ended : Typing.backslashes line.toList % 2 = 0

namespace TextLine

instance (line : String) : Decidable (TextLine line) :=
  have := List.decidableBAll
    (fun c : Char => c = '\t' ∨ (0x20 ≤ c.toNat ∧ c.toNat ≠ 0x7f)) line.toList
  decidable_of_iff (_ ∧ _) ⟨fun h => ⟨h.1, h.2⟩, fun h => ⟨h.1, h.2⟩⟩

def keystrokeOf (c : Char) : Keystroke := if c = '\t' then .tab else .char c

def keystrokes (line : String) : List Keystroke :=
  line.toList.map keystrokeOf ++ [.enter 0x0a]

theorem bytes_keystrokeOf (c : Char) : (keystrokeOf c).bytes = Utf8.encode [c] := by
  by_cases hc : c = '\t'
  · subst hc
    rfl
  · simp [keystrokeOf, hc, bytes]

theorem bytesOf_keystrokes (line : String) :
    bytesOf (keystrokes line) = Utf8.ofString (line ++ "\n") := by
  have hchars : ∀ cs : List Char, bytesOf (cs.map keystrokeOf) = Utf8.encode cs := by
    intro cs
    induction cs with
    | nil => rfl
    | cons c cs ih =>
      rw [List.map_cons, bytesOf, List.flatMap_cons, bytes_keystrokeOf, ← bytesOf, ih,
        ← Utf8.encode_append, List.singleton_append]
  have hline := hchars line.toList
  simp only [bytesOf] at hline
  rw [keystrokes, bytesOf, List.flatMap_append, hline, Utf8.ofString, String.toList_append,
    Utf8.encode_append]
  rfl

theorem script_keystrokes {line : String} (h : TextLine line) : Script false (keystrokes line) := by
  have hchars : ∀ cs : List Char, (∀ c ∈ cs, c = '\t' ∨ (0x20 ≤ c.toNat ∧ c.toNat ≠ 0x7f)) →
      Script false (cs.map keystrokeOf ++ [.enter 0x0a]) := by
    intro cs hcs
    induction cs with
    | nil => exact ⟨.inr rfl, fun hcut => absurd hcut (by decide), trivial⟩
    | cons c cs ih =>
      have hrest := ih fun d hd => hcs d (by simp [hd])
      by_cases hc : c = '\t'
      · rw [List.map_cons, keystrokeOf, if_pos hc]
        exact ⟨rfl, fun hcut => absurd hcut (by decide), hrest⟩
      · rw [List.map_cons, keystrokeOf, if_neg hc]
        exact ⟨(hcs c (by simp)).resolve_left hc, fun hcut => absurd hcut (by simp [isCut]), hrest⟩
  exact hchars line.toList h.printable

theorem press_keystrokeOf (buffer : List Char) (c : Char) :
    Typing.press buffer (keystrokeOf c) = (.going (buffer ++ [c]), Utf8.encode [c]) := by
  by_cases hc : c = '\t'
  · subst hc
    rfl
  · simp [keystrokeOf, hc, Typing.press]

theorem run_keystrokes (buffer cs : List Char) (keys : List Keystroke) :
    Typing.run buffer (cs.map keystrokeOf ++ keys) =
      { Typing.run (buffer ++ cs) keys with
        echo := Utf8.encode cs ++ (Typing.run (buffer ++ cs) keys).echo } := by
  induction cs generalizing buffer with
  | nil => simp [Utf8.encode]
  | cons c cs ih =>
    have hcons : Utf8.encode (c :: cs) = Utf8.encode [c] ++ Utf8.encode cs :=
      Utf8.encode_append [c] cs
    have hbuffer : buffer ++ c :: cs = buffer ++ [c] ++ cs := by simp
    rw [List.map_cons, List.cons_append, Typing.run, hcons, hbuffer]
    simp only [press_keystrokeOf, ih, List.append_assoc]

theorem run_line {line : String} (h : TextLine line) :
    Typing.run [] (keystrokes line) = ⟨.over (.ok line), [], Utf8.ofString line⟩ := by
  rw [keystrokes, run_keystrokes, List.nil_append, Typing.run]
  simp [Typing.press, h.ended, Utf8.ofString]

theorem readLine_line {line : String} (h : TextLine line) {setup : Setup}
    (hoff : setup.completing = false) (rest : List Event) :
    Console.readLine setup (⟨events (Utf8.ofString (line ++ "\n")) ++ rest, (), []⟩ : Console Unit) =
      (.ok line, ⟨rest, (), []⟩) := by
  have hscript : Script setup.completing (keystrokes line) := hoff ▸ h.script_keystrokes
  obtain ⟨_, -, hread⟩ :=
    Typing.readFrom_keystrokes Sink.unit_takes hscript [] [] trivial rest []
  rw [bytesOf_keystrokes, h.run_line] at hread
  exact hread

end TextLine

namespace Shell

def input (lines : List String) : Bytes := lines.flatMap fun line => Utf8.ofString (line ++ "\n")

def runLines (sh : Shell) : List String → Option Int × Shell
  | [] => (none, sh)
  | line :: lines =>
    match sh.runLine line with
    | (.leave status, sh) => (some status, sh)
    | (.goOn _, sh) => runLines sh lines

section Turns

variable {turn : Shell → List Event → Turn × Shell}
  {shorter : ∀ {sh : Shell} {events rest : List Event},
    (turn sh events).1 = .next rest → rest.length < events.length}

theorem takeTurns_over {sh after : Shell} {events : List Event} {outcome : Outcome}
    (h : turn sh events = (.over outcome, after)) :
    takeTurns turn shorter sh events = (outcome, after) := by
  rw [takeTurns]
  split
  · simp_all
  · simp_all

theorem takeTurns_next {sh after : Shell} {events rest : List Event}
    (h : turn sh events = (.next rest, after)) :
    takeTurns turn shorter sh events = takeTurns turn shorter after rest := by
  rw [takeTurns]
  split
  · simp_all
  · simp_all

end Turns

theorem batchTurn_line {line : String} (h : TextLine line) (sh : Shell) (rest : List Event) :
    sh.batchTurn (events (Utf8.ofString (line ++ "\n")) ++ rest) =
      (afterFlow rest (sh.runLine line).1, (sh.runLine line).2) := by
  have hread := h.readLine_line (show sh.plain.completing = false from rfl) rest
  simp only [batchTurn, hread]

theorem runBatch_nil (sh : Shell) : sh.runBatch [] = (.ok 0, sh) := by
  apply takeTurns_over
  simp only [batchTurn, Console.readLine, Console.readFrom_nil]
  rfl

theorem runBatch_append {lines : List String} (h : ∀ line ∈ lines, TextLine line) (sh : Shell)
    (rest : List Event) :
    sh.runBatch (events (input lines) ++ rest) =
      match sh.runLines lines with
      | (some status, after) => (.ok status, after)
      | (none, after) => after.runBatch rest := by
  induction lines generalizing sh with
  | nil => rfl
  | cons line lines ih =>
    have hturn := batchTurn_line (h line (by simp)) sh (events (input lines) ++ rest)
    have hinput : events (input (line :: lines)) ++ rest =
        events (Utf8.ofString (line ++ "\n")) ++ (events (input lines) ++ rest) := by
      simp [input]
    rw [hinput, runLines]
    rcases hline : sh.runLine line with ⟨_ | status, after⟩
    · rw [hline] at hturn
      rw [runBatch, takeTurns_next hturn]
      exact ih (fun l hl => h l (by simp [hl])) after
    · rw [hline] at hturn
      rw [runBatch, takeTurns_over hturn]

/-- A batch of text lines does what its lines do one after another, up to the
first that leaves. What follows that line has no effect. -/
theorem runBatch_lines {lines : List String} (h : ∀ line ∈ lines, TextLine line) (sh : Shell) :
    sh.runBatch (events (input lines)) =
        (.ok ((sh.runLines lines).1.getD 0), (sh.runLines lines).2) ∧
      ∀ (rest : List Event) (status : Int), (sh.runLines lines).1 = some status →
        sh.runBatch (events (input lines) ++ rest) = (.ok status, (sh.runLines lines).2) := by
  constructor
  · have hbatch := runBatch_append h sh []
    rw [List.append_nil] at hbatch
    rw [hbatch]
    rcases sh.runLines lines with ⟨_ | status, after⟩
    · exact runBatch_nil after
    · rfl
  · intro rest status hstatus
    rw [runBatch_append h sh rest]
    rcases hlines : sh.runLines lines with ⟨_ | found, after⟩
    · simp [hlines] at hstatus
    · simp only [hlines, Option.some.injEq] at hstatus
      rw [hstatus]

theorem runBatch_lines_leaving :
    let lines := ["echo \x27a  b\x27\t\\\\", "exit 3"]
    let sh : Shell := ofSession ⟨"$ ", true, [], "off", ""⟩ ⟨⟨"/"⟩, none, ⟨[]⟩⟩
      ⟨⟨[]⟩, [], none, .opened false, .empty, ⟨[], none, ""⟩⟩
    (∀ line ∈ lines, TextLine line) ∧
      sh.runBatch (events (input lines) ++ [.byte 0x03, .byte 0x70]) =
        (.ok 3, (sh.runLines lines).2) := by
  intro lines sh
  have hlines : ∀ line ∈ lines, TextLine line := by decide +kernel
  have hstatus : (sh.runLines lines).1 = some 3 := by decide +kernel
  exact ⟨hlines, (runBatch_lines hlines sh).2 _ _ hstatus⟩

end Shell

end LineShell
