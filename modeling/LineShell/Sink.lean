import LineShell.OsError
import LineShell.Text.Utf8

/-!
# Sinks

Where output goes. A write hands over all bytes of a piece or fails after a
part of them; a sink may hold bytes back until it is flushed.
-/

set_option autoImplicit false

namespace LineShell

/-- Bytes in the order of their arrival, kept as pieces with the last first. -/
structure Transcript where
  pieces : List Bytes
  deriving DecidableEq, Repr

namespace Transcript

def empty : Transcript := ⟨[]⟩

def push (t : Transcript) (bs : Bytes) : Transcript := ⟨bs :: t.pieces⟩

def bytes (t : Transcript) : Bytes := t.pieces.reverse.flatten

theorem bytes_push (t : Transcript) (bs : Bytes) : (t.push bs).bytes = t.bytes ++ bs := by
  simp [bytes, push]

end Transcript

class Sink (σ : Type) where
  write : σ → Bytes → Option OsError × σ
  flush : σ → Option OsError × σ

namespace Sink

variable {σ : Type} [Sink σ]

def writeAll (sink : σ) : List Bytes → Option OsError × σ
  | [] => (none, sink)
  | piece :: rest =>
    match write sink piece with
    | (none, sink) => writeAll sink rest
    | failed => failed

def emit (sink : σ) (pieces : List Bytes) : Option OsError × σ :=
  match writeAll sink pieces with
  | (none, sink) => flush sink
  | failed => failed

end Sink

instance : Sink Unit where
  write _ _ := (none, ())
  flush _ := (none, ())

/-- Keeps what it takes. A limit is how many more bytes it takes, and the error
that meets a write beyond them. -/
structure Recorder where
  limit : Option (Nat × OsError)
  kept : Transcript
  deriving DecidableEq, Repr

namespace Recorder

def unlimited : Recorder := ⟨none, .empty⟩

def limited (room : Nat) (refusal : OsError) : Recorder := ⟨some (room, refusal), .empty⟩

def write (r : Recorder) (bs : Bytes) : Option OsError × Recorder :=
  match r.limit with
  | none => (none, { r with kept := r.kept.push bs })
  | some (room, refusal) =>
    (if bs.length ≤ room then none else some refusal,
      ⟨some (room - bs.length, refusal), r.kept.push (bs.take room)⟩)

instance : Sink Recorder where
  write := write
  flush r := (none, r)

end Recorder

end LineShell
