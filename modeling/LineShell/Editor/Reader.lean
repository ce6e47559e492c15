import LineShell.Editor.Line
import LineShell.Sink

/-!
# Reading a line

Keys are read and answered one at a time until one of them ends the line. After
each key its echo is written and the output flushed.
-/

set_option autoImplicit false

namespace LineShell

/-- Both ends of a terminal, and the notices of what was done there. -/
structure Console (σ : Type) where
  events : List Event
  sink : σ
  notices : List Notice

variable {σ : Type} [Sink σ]

def Console.readFrom (setup : Setup) (line : Line) (console : Console σ) :
    Except ReadError String × Console σ :=
  if _h : console.events = [] then (.error (.abort .endOfInput), console)
  else
    let rest := (Key.next console.events).2
    match (Key.next console.events).1 with
    | .error e => (.error e, { console with events := rest })
    | .ok key =>
      match line.respond setup key with
      | .finish result => (result, { console with events := rest })
      | .edit line echo notices =>
        let (failure, sink) := Sink.emit console.sink (echo.map Utf8.encode)
        let console := ⟨rest, sink, console.notices ++ notices⟩
        match failure with
        | some e => (.error (.io e), console)
        | none => readFrom setup line console
termination_by console.events.length
decreasing_by exact Key.next_length _h

/-- Reads one line, without its end. What was typed before an abort is lost. -/
def Console.readLine (setup : Setup) (console : Console σ) :
    Except ReadError String × Console σ :=
  console.readFrom setup .empty

theorem Console.readFrom_length (setup : Setup) (line : Line) (console : Console σ) :
    (console.readFrom setup line).2.events.length ≤ console.events.length - 1 := by
  fun_induction Console.readFrom setup line console with
  | case1 => simp_all
  | case2 _ _ h => exact Nat.le_sub_one_of_lt (Key.next_length h)
  | case3 _ _ h => exact Nat.le_sub_one_of_lt (Key.next_length h)
  | case4 _ _ h => exact Nat.le_sub_one_of_lt (Key.next_length h)
  | case5 _ _ h _ _ _ _ _ _ _ _ _ _ ih =>
    exact Nat.le_trans ih (Nat.le_trans (Nat.sub_le _ _) (Nat.le_sub_one_of_lt (Key.next_length h)))

theorem Console.readFrom_nil {setup : Setup} {line : Line} {console : Console σ}
    (h : console.events = []) :
    console.readFrom setup line = (.error (.abort .endOfInput), console) := by
  rw [Console.readFrom, dif_pos h]

theorem Console.readLine_length {setup : Setup} {console : Console σ} {text : String}
    (h : (console.readLine setup).1 = .ok text) :
    (console.readLine setup).2.events.length < console.events.length := by
  have hle := Console.readFrom_length setup .empty console
  by_cases hn : console.events = []
  · simp [Console.readLine, Console.readFrom_nil hn] at h
  · have hpos := List.length_pos_iff.mpr hn
    simp only [Console.readLine]
    omega

end LineShell
