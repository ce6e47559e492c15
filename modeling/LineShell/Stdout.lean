import LineShell.Sink

/-!
# Standard output

Standard output is handed on in whole lines: a line feed sends everything up to
it to the device, and what comes after the last one is held back until more
arrives or it is flushed. Bytes that the device refuses are held as well, if
they were held before.
-/

set_option autoImplicit false

namespace LineShell

structure Stdout where
  /-- The device has no room for anything. -/
  isFull : Bool
  taken : Transcript
  held : Bytes
  deriving DecidableEq, Repr

namespace Stdout

def opened (isFull : Bool) : Stdout := ⟨isFull, .empty, []⟩

def capacity : Nat := 1024

def lineFeed : UInt8 := 0x0a

def pass (s : Stdout) (bs : Bytes) : Option OsError × Stdout :=
  if bs.isEmpty then (none, s)
  else if s.isFull then (some .noSpace, s)
  else (none, { s with taken := s.taken.push bs })

def flush (s : Stdout) : Option OsError × Stdout :=
  match s.pass s.held with
  | (none, s) => (none, { s with held := [] })
  | failed => failed

/-- Holds bytes back, after those held before are passed on if there is no room
for both. A piece that fills the whole capacity is not held. -/
def hold (s : Stdout) (bs : Bytes) : Option OsError × Stdout :=
  let fits := s.held.length + bs.length ≤ capacity
  match if fits then (none, s) else s.flush with
  | (none, s) =>
    if bs.length ≥ capacity then s.pass bs
    else (none, { s with held := s.held ++ bs })
  | failed => failed

def splitLines (bs : Bytes) : Bytes × Bytes :=
  let tail := (bs.reverse.takeWhile (· ≠ lineFeed)).length
  (bs.take (bs.length - tail), bs.drop (bs.length - tail))

def write (s : Stdout) (bs : Bytes) : Option OsError × Stdout :=
  let (lines, tail) := splitLines bs
  let before :=
    if lines.isEmpty then
      if s.held.getLast? = some lineFeed then s.flush else (none, s)
    else if s.held.isEmpty then s.pass lines
    else
      match s.hold lines with
      | (none, s) => s.flush
      | failed => failed
  match before with
  | (none, s) => s.hold tail
  | failed => failed

instance : Sink Stdout where
  write := write
  flush := flush

end Stdout

end LineShell
