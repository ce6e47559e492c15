import LineShell.Sink

/-!
# Outlets

The two channels on which a command writes.
-/

set_option autoImplicit false

namespace LineShell

inductive Channel where
  | out
  | err
  deriving DecidableEq, Repr

class Outlets (σ : Type) where
  write : Channel → σ → Bytes → Option OsError × σ
  flush : Channel → σ → Option OsError × σ

instance {α β : Type} [Sink α] [Sink β] : Outlets (α × β) where
  write
    | .out, (out, err), bs => let (e, out) := Sink.write out bs; (e, out, err)
    | .err, (out, err), bs => let (e, err) := Sink.write err bs; (e, out, err)
  flush
    | .out, (out, err) => let (e, out) := Sink.flush out; (e, out, err)
    | .err, (out, err) => let (e, err) := Sink.flush err; (e, out, err)

namespace Outlets

variable {σ : Type} [Outlets σ]

def writeAll (outlets : σ) : List (Channel × String) → Option OsError × σ
  | [] => (none, outlets)
  | (channel, piece) :: rest =>
    match write channel outlets (Utf8.ofString piece) with
    | (none, outlets) => writeAll outlets rest
    | failed => failed

def flushAll (outlets : σ) : Option OsError × σ :=
  match flush .out outlets with
  | (none, outlets) => flush .err outlets
  | failed => failed

def emit (outlets : σ) (pieces : List (Channel × String)) : Option OsError × σ :=
  match writeAll outlets pieces with
  | (none, outlets) => flushAll outlets
  | failed => failed

end Outlets

end LineShell
