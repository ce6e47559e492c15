import LineShell.Sink

/-!
# Standard error

Nothing is held back on standard error: its device takes a piece or refuses it.
-/

set_option autoImplicit false

namespace LineShell

structure Stderr where
  /-- The device has no room for anything. -/
  isFull : Bool
  taken : Transcript
  deriving DecidableEq, Repr

namespace Stderr

def empty : Stderr := ⟨false, .empty⟩

def bytes (s : Stderr) : Bytes := s.taken.bytes

def push (s : Stderr) (bs : Bytes) : Stderr := { s with taken := s.taken.push bs }

def write (s : Stderr) (bs : Bytes) : Option OsError × Stderr :=
  if bs.isEmpty then (none, s)
  else if s.isFull then (some .noSpace, s)
  else (none, s.push bs)

theorem bytes_push (s : Stderr) (bs : Bytes) : (s.push bs).bytes = s.bytes ++ bs :=
  Transcript.bytes_push s.taken bs

theorem write_roomy {s : Stderr} (h : s.isFull = false) (bs : Bytes) :
    ∃ taken : Transcript, s.write bs = (none, { s with taken }) ∧ taken.bytes = s.bytes ++ bs := by
  unfold write
  by_cases hbs : bs = []
  · rw [if_pos (by simp [hbs]), hbs, List.append_nil]
    exact ⟨s.taken, rfl, rfl⟩
  · rw [if_neg (by simpa using hbs), if_neg (by simp [h])]
    exact ⟨s.taken.push bs, rfl, s.taken.bytes_push bs⟩

theorem write_done {s next : Stderr} {bs : Bytes} (h : s.write bs = (none, next)) :
    next.bytes = s.bytes ++ bs ∧ next.isFull = s.isFull := by
  unfold write at h
  split at h
  · rename_i hempty
    cases h
    rw [List.isEmpty_iff.mp hempty, List.append_nil]
    exact ⟨rfl, rfl⟩
  split at h
  · cases h
  · cases h
    exact ⟨s.bytes_push bs, rfl⟩

theorem write_refused {s next : Stderr} {bs : Bytes} {e : OsError}
    (h : s.write bs = (some e, next)) : next = s ∧ s.isFull = true := by
  unfold write at h
  split at h
  · cases h
  split at h
  · rename_i hfull
    cases h
    exact ⟨rfl, hfull⟩
  · cases h

theorem write_full {s : Stderr} (h : s.isFull = true) {bs : Bytes} (hbs : bs ≠ []) :
    s.write bs = (some .noSpace, s) := by
  rw [write, if_neg (by simpa using hbs), if_pos h]

end Stderr

end LineShell
