import LineShell.Proofs.Offering

/-!
# Leaving

With one argument at most, `exit` ends the session with the status that it asks
for, unless something that it puts out is refused: its message, or what standard
output holds from earlier lines. Then the session goes on.
-/

set_option autoImplicit false

namespace LineShell

namespace Stdout

def Stuck (s : Stdout) : Prop := s.isFull = true ∧ s.held ≠ []

instance (s : Stdout) : Decidable s.Stuck :=
  inferInstanceAs (Decidable (s.isFull = true ∧ s.held ≠ []))

theorem flush_stuck {s : Stdout} (h : s.Stuck) : s.flush = (some .noSpace, s) := by
  rw [flush, pass, if_neg (by simpa using h.2), if_pos h.1]

theorem flush_free {s : Stdout} (h : ¬s.Stuck) : ∃ next, s.flush = (none, next) := by
  by_cases hheld : s.held = []
  · rw [flush, pass, if_pos (by simp [hheld])]
    exact ⟨_, rfl⟩
  · have hroomy : ¬s.isFull = true := fun hfull => h ⟨hfull, hheld⟩
    rw [flush, pass, if_neg (by simpa using hheld), if_neg hroomy]
    exact ⟨_, rfl⟩

end Stdout

namespace FileTree

variable {t : FileTree} {h : Handle} {bs : Bytes}

theorem write_full (hn : t.node? h.loc = some (.device .full)) (hbs : bs ≠ []) :
    t.write h bs = .error .noSpace := by
  simp only [write, hn]
  rw [if_neg (by simpa using hbs)]

theorem write_taken (hn : t.node? h.loc ≠ some (.device .full)) (bs : Bytes) :
    ∃ u k, t.write h bs = .ok (u, k) ∧ u.node? k.loc ≠ some (.device .full) := by
  have htaken : ∃ u k, t.write h bs = .ok (u, k) := by
    unfold write
    dsimp only
    split
    · exact ⟨_, _, rfl⟩
    split
    · exact ⟨_, _, rfl⟩
    · exact ⟨_, _, rfl⟩
    · rename_i hnode
      exact absurd hnode hn
    · exact ⟨_, _, rfl⟩
  obtain ⟨u, k, hwrite⟩ := htaken
  refine ⟨u, k, hwrite, ?_⟩
  obtain ⟨hloc, rfl | ⟨old, content, mode, hold, hleaf, -, rfl⟩⟩ := write_cases hwrite
  · rw [hloc]
    exact hn
  · rw [hloc, node?_put_self (ne_root_of_isLeaf hold hleaf)]
    simp

end FileTree

namespace Job

/-- Standard error, which may be that of the shell, goes to a device that is full. -/
def Mute (j : Job) : Prop :=
  match j.streams.stderr with
  | some handle => j.host.tree.node? handle.loc = some (.device .full)
  | none => j.host.stderr.isFull = true

def Stuck (j : Job) : Prop := j.streams.stdout = none ∧ j.host.stdout.Stuck

variable {j : Job}

theorem write_mute (h : j.Mute) {text : String} (htext : Utf8.ofString text ≠ []) :
    Outlets.write .err j (Utf8.ofString text) = (some .noSpace, j) := by
  show writeVia share .err j _ = _
  unfold Mute at h
  cases hstderr : j.streams.stderr with
  | none =>
    rw [hstderr] at h
    simp only [writeVia, Job.handle, hstderr, share, Stderr.write_full h htext]
  | some handle =>
    rw [hstderr] at h
    simp only [writeVia, Job.handle, hstderr, FileTree.write_full h htext]

theorem write_heard (h : ¬j.Mute) (bs : Bytes) :
    ∃ next, Outlets.write .err j bs = (none, next) ∧ ¬next.Mute ∧ (next.Stuck ↔ j.Stuck) := by
  show ∃ next, writeVia share .err j bs = (none, next) ∧ _
  unfold Mute at h
  unfold writeVia
  simp only [Job.handle]
  cases hstderr : j.streams.stderr with
  | none =>
    rw [hstderr] at h
    obtain ⟨taken, hwrite, -⟩ := Stderr.write_roomy (Bool.not_eq_true _ ▸ h) bs
    simp only [share, hwrite]
    refine ⟨_, rfl, ?_, Iff.rfl⟩
    simpa only [Mute, hstderr] using h
  | some handle =>
    rw [hstderr] at h
    obtain ⟨u, k, hwrite, hkept⟩ := FileTree.write_taken h bs
    simp only [hwrite]
    exact ⟨_, rfl, hkept, Iff.rfl⟩

theorem writeAll_heard (h : ¬j.Mute) (texts : List String) :
    ∃ next, Outlets.writeAll j (texts.map (Channel.err, ·)) = (none, next) ∧
      (next.Stuck ↔ j.Stuck) := by
  induction texts generalizing j with
  | nil => exact ⟨j, rfl, Iff.rfl⟩
  | cons text texts ih =>
    obtain ⟨middle, hwrite, hheard, hmiddle⟩ := write_heard h (Utf8.ofString text)
    obtain ⟨next, hall, hnext⟩ := ih hheard
    refine ⟨next, ?_, hnext.trans hmiddle⟩
    rw [List.map_cons, Outlets.writeAll, hwrite]
    exact hall

theorem flush_out_isSome : (Outlets.flush .out j).1.isSome ↔ j.Stuck := by
  show (j.flush .out).1.isSome ↔ _
  unfold flush
  cases hstdout : j.streams.stdout with
  | some handle => simp [Stuck, hstdout]
  | none =>
    by_cases hstuck : j.host.stdout.Stuck
    · simp [Stuck, hstdout, hstuck, Stdout.flush_stuck hstuck]
    · obtain ⟨next, hflush⟩ := Stdout.flush_free hstuck
      simp [Stuck, hstdout, hstuck, hflush]

theorem emit_written {pieces : List (Channel × String)} {next : Job}
    (h : Outlets.writeAll j pieces = (none, next)) :
    (Outlets.emit j pieces).1.isSome ↔ next.Stuck := by
  have hflushed := next.flush_out_isSome
  rw [Outlets.emit, h]
  dsimp only [Outlets.flushAll]
  rcases hflush : Outlets.flush .out next with ⟨_ | e, last⟩ <;> rw [hflush] at hflushed
  · exact hflushed
  · exact hflushed

/-- What fails is the message, on a full device, or else the flush of standard output
after it. -/
theorem emit_errs {texts : List String} (hfirst : ∀ text ∈ texts.head?, Utf8.ofString text ≠ []) :
    (Outlets.emit j (texts.map (Channel.err, ·))).1.isSome ↔ texts ≠ [] ∧ j.Mute ∨ j.Stuck := by
  by_cases hmute : j.Mute
  · cases texts with
    | nil =>
      rw [List.map_nil, emit_written rfl]
      simp
    | cons text texts =>
      have hrefused := write_mute hmute (hfirst text rfl)
      rw [List.map_cons, Outlets.emit, Outlets.writeAll, hrefused]
      simp [hmute]
  · obtain ⟨next, hall, hnext⟩ := writeAll_heard hmute texts
    rw [emit_written hall, hnext]
    simp [hmute]

end Job

namespace Builtin

def exitStatus : List String → Int
  | [code] => (Numeral.int32? code).getD 2
  | _ => 0

def exitMessage : List String → List String
  | [code] =>
    if (Numeral.int32? code).isSome then [] else ["exit: ", code, ": numeric argument required\n"]
  | _ => []

variable {s : Session} {args : List String}

theorem runExit_leaves (h : args.length ≤ 1) :
    runExit s args = .message s .err (exitMessage args) (.leave (exitStatus args)) := by
  match args with
  | [] => rfl
  | [code] =>
    simp only [runExit, exitMessage, exitStatus]
    cases Numeral.int32? code with
    | some n => rfl
    | none => rfl
  | _ :: _ :: _ => simp at h

theorem exitMessage_head (args : List String) :
    ∀ text ∈ (exitMessage args).head?, Utf8.ofString text ≠ [] := by
  unfold exitMessage
  split
  · split
    · simp
    · intro text htext
      cases htext
      decide
  · simp

end Builtin

namespace Command

variable (c : Command) (s : Session) (j : Job)

theorem runBuiltin_flow (b : Builtin) :
    let report := b.run s j.host.tree j.host.start c.args
    (c.runBuiltin b s j).1 =
      if (Outlets.emit ({ j with host := j.host.noteAll report.notices } : Job)
        report.writes).1.isSome then .goOn 1 else report.flow := by
  dsimp only
  rw [runBuiltin_emit]
  generalize b.run s j.host.tree j.host.start c.args = report
  rcases Outlets.emit ({ j with host := j.host.noteAll report.notices } : Job) report.writes
    with ⟨_ | e, left⟩
  · rfl
  · rfl

/-- Something that `exit` puts out is refused: its message, or what is still held back. -/
def LeavesUnheard : Prop := Builtin.exitMessage c.args ≠ [] ∧ j.Mute ∨ j.Stuck

theorem runExit_flow (h : c.args.length ≤ 1) :
    (c.LeavesUnheard j → (c.runBuiltin .exit s j).1 = .goOn 1) ∧
      (¬c.LeavesUnheard j → (c.runBuiltin .exit s j).1 = .leave (Builtin.exitStatus c.args)) := by
  have hflow := c.runBuiltin_flow s j .exit
  rw [Builtin.run, Builtin.runExit_leaves h] at hflow
  have hemit := Job.emit_errs (j := j) (Builtin.exitMessage_head c.args)
  constructor
  · intro hunheard
    rw [hflow]
    exact if_pos (hemit.mpr hunheard)
  · intro hheard
    rw [hflow]
    exact if_neg (hemit.not.mpr hheard)

end Command

namespace Shell

variable {sh : Shell} {line : String} {c : Command} {j : Job}

/-- With one argument at most, `exit` at work with its streams open ends the session
with the status that it asks for: 0, its argument's number, or 2. But the session
goes on if a message is due and standard error is a full device, or if the shell's
own standard output holds bytes of earlier lines that its device refuses. -/
theorem runLine_exit (h : sh.job? line = some (c, j)) (hname : c.name = "exit")
    (hargs : c.args.length ≤ 1) :
    let ran := sh.runLine line
    let refused := Builtin.exitMessage c.args ≠ [] ∧ j.Mute ∨
      j.streams.stdout = none ∧ sh.host.stdout.Stuck
    (¬refused → ran.1 = .leave (Builtin.exitStatus c.args)) ∧ (refused → ran.1 = .goOn 1) ∧
      ran.2.session = sh.session := by
  intro ran refused
  have hran : ran = _ := runLine_builtin (b := .exit) h hname.symm
  have hrefused : c.LeavesUnheard j ↔ refused := by
    rw [Command.LeavesUnheard, Job.Stuck, (job_before h).stdout]
  obtain ⟨hunheard, hheard⟩ := c.runExit_flow sh.session j hargs
  rw [hran]
  refine ⟨?_, ?_, ?_⟩
  · exact fun hfree => hheard (hrefused.not.mpr hfree)
  · exact fun hstuck => hunheard (hrefused.mpr hstuck)
  · dsimp only
    rw [Command.runBuiltin_session, Builtin.run, Builtin.runExit_leaves hargs]
    rfl

theorem runLine_exit_word :
    let h : Host := ⟨⟨[]⟩, [], none, .opened false, .empty, ⟨[], none, ""⟩⟩
    let sh : Shell := ⟨"", false, ⟨⟨"/"⟩, none, ⟨[]⟩⟩, h⟩
    ∃ c j, sh.job? "exit x" = some (c, j) ∧ c.name = "exit" ∧ c.args.length ≤ 1 ∧
      (sh.runLine "exit x").1 = .leave 2 := by
  intro h sh
  have hwords : splitWords "exit x" = ["exit", "x"].map .arg := by decide +kernel
  have hjob := job?_args sh hwords
  obtain ⟨hleaves, -, -⟩ := runLine_exit hjob rfl (Nat.le_refl 1)
  refine ⟨_, _, hjob, rfl, Nat.le_refl 1, ?_⟩
  refine (hleaves ?_).trans (by decide +kernel)
  rintro (⟨-, hfull⟩ | ⟨-, hfull, -⟩)
  · cases hfull
  · cases hfull

/-- A line that was refused keeps the session from ending. -/
theorem runLine_exit_held :
    let h : Host := ⟨⟨[]⟩, [], none, .opened true, .empty, ⟨[], none, ""⟩⟩
    let sh : Shell := ⟨"", false, ⟨⟨"/"⟩, none, ⟨[]⟩⟩, h⟩
    let ran := (sh.runLine "echo hi").2
    (∃ c j, ran.job? "exit 3" = some (c, j) ∧ c.name = "exit" ∧ c.args = ["3"]) ∧
      (ran.runLine "exit 3").1 = .goOn 1 := by
  intro h sh ran
  have hwords : splitWords "exit 3" = ["exit", "3"].map .arg := by decide +kernel
  exact ⟨⟨_, _, job?_args ran hwords, rfl, rfl⟩, by decide +kernel⟩

end Shell

end LineShell
