import LineShell.Proofs.Alike
import LineShell.Proofs.Reading
import LineShell.Proofs.Reports

/-!
# Output with room

A device that is not full takes everything that is written, in its order. At the
end of a line of text nothing is held back, and the messages of builtins never
come inside such a line, so that nothing is held back between commands either,
even when a message cannot be written.
-/

set_option autoImplicit false

namespace LineShell

namespace Stdout

/-- All that was written, whether the device has it already or not. -/
def written (s : Stdout) : Bytes := s.taken.bytes ++ s.held

structure Quiet (s : Stdout) : Prop where
  roomy : s.isFull = false
  nothingHeld : s.held = []

structure Settled (shown : Bytes) (s : Stdout) : Prop extends s.Quiet where
  shown : s.taken.bytes = shown

section Roomy

variable {s : Stdout}

theorem pass_roomy (h : s.isFull = false) (bs : Bytes) : ∃ next, s.pass bs = (none, next) ∧
    next.isFull = false ∧ next.held = s.held ∧ next.taken.bytes = s.taken.bytes ++ bs := by
  by_cases hbs : bs.isEmpty
  · refine ⟨s, by rw [pass, if_pos hbs], h, rfl, ?_⟩
    rw [List.isEmpty_iff.mp hbs, List.append_nil]
  · refine ⟨{ s with taken := s.taken.push bs }, ?_, h, rfl, Transcript.bytes_push _ _⟩
    rw [pass, if_neg hbs, if_neg (by simp [h])]

theorem flush_roomy (h : s.isFull = false) : ∃ next, s.flush = (none, next) ∧
    next.Settled s.written := by
  obtain ⟨next, hpass, hroomy, -, htaken⟩ := pass_roomy h s.held
  exact ⟨{ next with held := [] }, by rw [flush, hpass], ⟨hroomy, rfl⟩, htaken⟩

theorem Settled.written_eq {shown : Bytes} (h : s.Settled shown) : s.written = shown := by
  rw [written, h.nothingHeld, h.shown, List.append_nil]

theorem hold_roomy (h : s.isFull = false) (bs : Bytes) : ∃ next, s.hold bs = (none, next) ∧
    next.isFull = false ∧ next.written = s.written ++ bs ∧
    (s.held = [] → bs = [] → next.held = []) := by
  have hready : ∃ ready, (if s.held.length + bs.length ≤ capacity then (none, s) else s.flush) =
      (none, ready) ∧ ready.isFull = false ∧ ready.written = s.written ∧
      (bs.length ≥ capacity → ready.held = []) ∧ (s.held = [] → ready.held = []) := by
    by_cases hfits : s.held.length + bs.length ≤ capacity
    · refine ⟨s, if_pos hfits, h, rfl, fun hlarge => ?_, id⟩
      rw [← List.length_eq_zero_iff]
      omega
    · obtain ⟨ready, hflush, hsettled⟩ := flush_roomy h
      exact ⟨ready, by rw [if_neg hfits, hflush], hsettled.roomy, hsettled.written_eq,
        fun _ => hsettled.nothingHeld, fun _ => hsettled.nothingHeld⟩
  obtain ⟨ready, heq, hroomy, hwritten, hlarge, hheld⟩ := hready
  simp only [hold, heq]
  by_cases hsize : bs.length ≥ capacity
  · obtain ⟨next, hpass, hnext, hkept, htaken⟩ := pass_roomy hroomy bs
    rw [if_pos hsize]
    refine ⟨next, hpass, hnext, ?_, fun _ _ => by rw [hkept, hlarge hsize]⟩
    rw [← hwritten, written, written, hkept, htaken, hlarge hsize, List.append_nil, List.append_nil]
  · rw [if_neg hsize]
    refine ⟨_, rfl, hroomy, ?_, fun hs hbs => ?_⟩
    · rw [← hwritten, written, written, List.append_assoc]
    · rw [hheld hs, hbs]
      rfl

theorem splitLines_append (bs : Bytes) : (splitLines bs).1 ++ (splitLines bs).2 = bs :=
  List.take_append_drop _ _

theorem splitLines_ended {bs : Bytes} (h : bs.getLast? = some lineFeed) :
    splitLines bs = (bs, []) := by
  obtain ⟨start, rfl⟩ := List.getLast?_eq_some_iff.mp h
  have htail : ((start ++ [lineFeed]).reverse.takeWhile (· ≠ lineFeed)).length = 0 := by simp
  rw [splitLines, htail, Nat.sub_zero, List.take_length, List.drop_length]

/-- What a write does before it holds back the end of an open line. -/
def writeLines (s : Stdout) (lines : Bytes) : Option OsError × Stdout :=
  if lines.isEmpty then
    if s.held.getLast? = some lineFeed then s.flush else (none, s)
  else if s.held.isEmpty then s.pass lines
  else
    match s.hold lines with
    | (none, s) => s.flush
    | failed => failed

theorem write_eq_writeLines (s : Stdout) (bs : Bytes) : s.write bs =
    match s.writeLines (splitLines bs).1 with
    | (none, s) => s.hold (splitLines bs).2
    | failed => failed := rfl

theorem writeLines_roomy (h : s.isFull = false) (lines : Bytes) : ∃ ready,
    s.writeLines lines = (none, ready) ∧ ready.isFull = false ∧
      ready.written = s.written ++ lines ∧ (lines ≠ [] → ready.held = []) := by
  unfold writeLines
  by_cases hlines : lines.isEmpty
  · have hnil : lines = [] := List.isEmpty_iff.mp hlines
    rw [if_pos hlines, hnil, List.append_nil]
    split
    · obtain ⟨ready, hflush, hsettled⟩ := flush_roomy h
      exact ⟨ready, hflush, hsettled.roomy, hsettled.written_eq, by simp⟩
    · exact ⟨s, rfl, h, rfl, by simp⟩
  rw [if_neg hlines]
  by_cases hheld : s.held.isEmpty
  · have hnil : s.held = [] := List.isEmpty_iff.mp hheld
    obtain ⟨ready, hpass, hroomy, hkept, htaken⟩ := pass_roomy h lines
    refine ⟨ready, by rw [if_pos hheld, hpass], hroomy, ?_, fun _ => by rw [hkept, hnil]⟩
    rw [written, written, hkept, htaken, hnil, List.append_nil, List.append_nil]
  · obtain ⟨between, hhold, hroomy, hwritten, -⟩ := hold_roomy h lines
    obtain ⟨ready, hflush, hsettled⟩ := flush_roomy hroomy
    refine ⟨ready, by simp only [if_neg hheld, hhold, hflush], hsettled.roomy, ?_,
      fun _ => hsettled.nothingHeld⟩
    rw [hsettled.written_eq, hwritten]

/-- A write goes on after what was written before, and at the end of a line there
is nothing left to hold. -/
theorem write_roomy (h : s.isFull = false) (bs : Bytes) : ∃ next, s.write bs = (none, next) ∧
    next.isFull = false ∧ next.written = s.written ++ bs ∧
    (bs.getLast? = some lineFeed → next.held = []) := by
  obtain ⟨ready, hready, hroomy, hwritten, hnothing⟩ := writeLines_roomy h (splitLines bs).1
  obtain ⟨next, hhold, hnext, hall, hheld⟩ := hold_roomy hroomy (splitLines bs).2
  refine ⟨next, by rw [write_eq_writeLines, hready]; exact hhold, hnext, ?_, fun hended => ?_⟩
  · rw [hall, hwritten, List.append_assoc, splitLines_append]
  · have hne : bs ≠ [] := by
      intro hnil
      rw [hnil] at hended
      cases hended
    rw [splitLines_ended hended] at hnothing hheld
    exact hheld (hnothing hne) rfl

theorem writeAll_roomy (h : s.isFull = false) (pieces : List Bytes) : ∃ next,
    Sink.writeAll s pieces = (none, next) ∧ next.isFull = false ∧
      next.written = s.written ++ pieces.flatten := by
  induction pieces generalizing s with
  | nil => exact ⟨s, rfl, h, by simp⟩
  | cons piece pieces ih =>
    obtain ⟨middle, hwrite, hroomy, hwritten, -⟩ := write_roomy h piece
    obtain ⟨next, hall, hnext, hothers⟩ := ih hroomy
    refine ⟨next, ?_, hnext, by rw [hothers, hwritten, List.flatten_cons, List.append_assoc]⟩
    rw [Sink.writeAll, show Sink.write s piece = (none, middle) from hwrite]
    exact hall

end Roomy

end Stdout

/-! ## Pieces of text on both outputs -/

/-- Messages come only between whole lines of output. -/
inductive Tidy : List (Channel × String) → Prop
  | outs (texts : List String) : Tidy (texts.map (.out, ·))
  | err {rest : List (Channel × String)} (text : String) (h : Tidy rest) : Tidy ((.err, text) :: rest)
  | line {rest : List (Channel × String)} (texts : List String) (last : String) (h : Tidy rest) :
    Tidy (texts.map (.out, ·) ++ (.out, last ++ "\n") :: rest)

namespace Tidy

theorem errs {rest : List (Channel × String)} (texts : List String) (h : Tidy rest) :
    Tidy (texts.map (.err, ·) ++ rest) := by
  induction texts with
  | nil => exact h
  | cons text texts ih => exact ih.err text

theorem message (s : Session) (channel : Channel) (pieces : List String) (flow : Flow) :
    Tidy (Builtin.Report.message s channel pieces flow).writes := by
  cases channel with
  | out => exact .outs pieces
  | err => simpa [Builtin.Report.message] using errs pieces (.outs [])

theorem runType (s : Session) (t : FileTree) (start : Location) (args : List String) :
    Tidy (Builtin.runType s t start args).writes := by
  simp only [Builtin.runType]
  induction args with
  | nil => exact .outs []
  | cons name args ih =>
    rw [List.map_cons, List.flatMap_cons]
    unfold Builtin.describe
    split
    · exact .line [name] " is a shell builtin" ih
    split
    · rename_i path hfound
      exact .line [name, " is ", path.text] "" ih
    · exact errs [name, ": not found\n"] ih

theorem run (b : Builtin) (s : Session) (t : FileTree) (start : Location) (args : List String) :
    Tidy (b.run s t start args).writes := by
  have hdoes := b.run_does s t start args
  generalize b.run s t start args = report at hdoes
  cases hdoes with
  | speaks channel pieces => exact .message s channel pieces _
  | leaves name channel pieces => exact .message s channel pieces _
  | describes => exact .runType s t start args
  | moves => exact .outs []

end Tidy

/-! ## Nothing held back between commands -/

namespace Job

variable {j : Job} {pieces : List (Channel × String)}

end Job

end LineShell
