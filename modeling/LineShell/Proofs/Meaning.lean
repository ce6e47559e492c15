import LineShell.Proofs.Arguments
import LineShell.Proofs.Children
import LineShell.Proofs.Dropping
import LineShell.Proofs.Echoing
import LineShell.Proofs.Reports

/-!
# What a name means

The outcome of a command whose streams are open tells whether its name means a
builtin, a program or nothing. `type` tells the same, but takes no name with a slash
for that of a program.
-/

set_option autoImplicit false

namespace LineShell

namespace Builtin

theorem ofName?_eq_some {name : String} {b : Builtin} : ofName? name = some b ↔ b.name = name := by
  constructor
  · intro h
    simpa using List.find?_some h
  · rintro rfl
    exact ofName?_name b

theorem noSlash (b : Builtin) : '/' ∉ b.name.toList := by
  cases b <;> decide

end Builtin

namespace Session

variable {s : Session} {t : FileTree} {start : Location} {name : String} {b : Builtin}

theorem meaning_of_ofName? (h : Builtin.ofName? name = some b) :
    s.meaning t start name = .builtin b := by
  rw [meaning, h]

theorem meaning_eq_builtin : s.meaning t start name = .builtin b ↔ b.name = name := by
  rw [← Builtin.ofName?_eq_some, meaning]
  cases Builtin.ofName? name with
  | some found => simp
  | none => cases s.locate t start name <;> simp

theorem locate_bare (h : '/' ∉ name.toList) :
    s.locate t start name = s.search.find? t start name := by
  rw [locate, if_neg (by simpa using h)]

theorem meaning_bare (hname : Builtin.ofName? name = none) (hslash : '/' ∉ name.toList) :
    s.meaning t start name =
      match s.search.find? t start name with
      | some path => .program path
      | none => .nothing := by
  unfold meaning
  cases hfind : s.search.find? t start name with
  | none => simp [hname, locate_bare hslash, hfind]
  | some path => simp [hname, locate_bare hslash, hfind]

end Session

/-! ## What is logged -/

namespace Job

variable (j : Job)

theorem write_journal (channel : Channel) (bs : Bytes) :
    (Outlets.write channel j bs).2.host.journal = j.host.journal := by
  show (writeVia share channel j bs).2.host.journal = _
  unfold writeVia
  cases j.handle channel with
  | none => cases channel <;> rfl
  | some handle =>
    dsimp only
    cases j.host.tree.write handle bs with
    | error e => rfl
    | ok written => cases channel <;> rfl

theorem writeAll_journal (pieces : List (Channel × String)) :
    (Outlets.writeAll j pieces).2.host.journal = j.host.journal := by
  induction pieces generalizing j with
  | nil => rfl
  | cons piece pieces ih =>
    have hfirst := j.write_journal piece.1 (Utf8.ofString piece.2)
    rw [Outlets.writeAll]
    rcases hwrite : Outlets.write piece.1 j (Utf8.ofString piece.2) with ⟨_ | e, next⟩ <;>
      rw [hwrite] at hfirst
    · exact (ih next).trans hfirst
    · exact hfirst

theorem flush_journal (channel : Channel) :
    (Outlets.flush channel j).2.host.journal = j.host.journal := by
  show (j.flush channel).2.host.journal = _
  unfold flush
  split <;> rfl

theorem emit_journal (pieces : List (Channel × String)) :
    (Outlets.emit j pieces).2.host.journal = j.host.journal := by
  have hall := j.writeAll_journal pieces
  rw [Outlets.emit]
  rcases hwrite : Outlets.writeAll j pieces with ⟨_ | e, next⟩ <;> rw [hwrite] at hall
  · have hout := next.flush_journal .out
    dsimp only [Outlets.flushAll]
    rcases hflush : Outlets.flush Channel.out next with ⟨_ | e, last⟩ <;> rw [hflush] at hout
    · exact (last.flush_journal .err).trans (hout.trans hall)
    · exact hout.trans hall
  · exact hall

end Job

namespace Host

theorem logged_lasting (ns : List Notice) : Lasting fun h => ns <+: h.journal.notices := by
  refine .of_stdout (fun _ h => h) (fun m h => ?_) (fun _ h => h) fun _ h => h
  rw [notices_note]
  exact h.trans (List.prefix_append _ _)

end Host

namespace Command

variable (c : Command) (s : Session) (j : Job)

theorem spawning_injective {path path' : Path} (h : c.spawning s path = c.spawning s path') :
    path = path' := by
  have hmessage := congrArg (·.message.toList) h
  have htext : path.text.toList = path'.text.toList := by simpa [spawning, toString] using hmessage
  exact congrArg Path.mk (String.toList_inj.mp htext)

theorem spawning_ne_moving (path target : Path) : c.spawning s path ≠ Builtin.moving s target := by
  intro h
  have hmessage := congrArg (·.message.toList.head?) h
  simp [spawning, Builtin.moving, toString] at hmessage

theorem runBuiltin_session (b : Builtin) :
    (c.runBuiltin b s j).2.1 = (b.run s j.host.tree j.host.start c.args).session := by
  rw [runBuiltin_emit]
  split <;> rfl

theorem runBuiltin_notices (b : Builtin) : ∃ warnings : List Notice,
    (c.runBuiltin b s j).2.2.journal.notices =
      j.host.journal.notices ++ (b.run s j.host.tree j.host.start c.args).notices ++ warnings ∧
    ∀ n ∈ warnings, n.level = .warn := by
  rw [runBuiltin_emit]
  generalize b.run s j.host.tree j.host.start c.args = report
  have hjournal :=
    ({ j with host := j.host.noteAll report.notices } : Job).emit_journal report.writes
  rcases hemit : Outlets.emit ({ j with host := j.host.noteAll report.notices } : Job) report.writes
    with ⟨_ | e, left⟩ <;> rw [hemit] at hjournal
  · refine ⟨[], ?_, List.forall_mem_nil _⟩
    show left.host.journal.notices = _
    rw [hjournal, Host.notices_noteAll, List.append_nil]
  · refine ⟨_, (Host.notices_note _ _).trans (by rw [hjournal, Host.notices_noteAll]), ?_⟩
    exact List.forall_mem_singleton.mpr rfl

theorem reportMissing_notices : ∃ warnings : List Notice,
    (c.reportMissing j).journal.notices = j.host.journal.notices ++ warnings ∧
    ∀ n ∈ warnings, n.level = .warn := by
  have hjournal := j.writeAll_journal [(.err, c.name), (.err, ": command not found\n")]
  rw [reportMissing]
  rcases hwrite : Outlets.writeAll j [(.err, c.name), (.err, ": command not found\n")]
    with ⟨_ | e, left⟩ <;> rw [hwrite] at hjournal
  · refine ⟨[], ?_, List.forall_mem_nil _⟩
    show left.host.journal.notices = _
    rw [hjournal, List.append_nil]
  · refine ⟨_, (Host.notices_note _ _).trans (by rw [hjournal]), ?_⟩
    exact List.forall_mem_singleton.mpr rfl

theorem act_program_notices (path : Path) :
    j.host.journal.notices ++ [c.spawning s path] <+:
      (c.act s j (.program path)).2.2.journal.notices := by
  have hnoted : j.host.journal.notices ++ [c.spawning s path] <+:
      (j.host.note (c.spawning s path)).journal.notices :=
    ⟨[], by rw [Host.notices_note, List.append_nil]⟩
  simp only [act]
  split
  · exact hnoted
  · obtain ⟨left, k, k', hk, -, -, hkept⟩ := Launch.perform_keeps
      (Host.logged_lasting _).similar _ _ _ j.streams (fun _ _ hloc => by cases hloc) ⟨rfl, hnoted⟩
    rw [hk]
    exact hkept

/-- The first thing that a command logs tells whether it starts a program, and which. -/
theorem act_spawning_iff (path : Path) (m : Meaning) :
    j.host.journal.notices ++ [c.spawning s path] <+: (c.act s j m).2.2.journal.notices ↔
      m = .program path := by
  have hwarning {warnings : List Notice} (hwarn : ∀ n ∈ warnings, n.level = .warn) :
      c.spawning s path ∉ warnings := fun hmem => by cases hwarn _ hmem
  constructor
  · intro h
    cases m with
    | builtin b =>
      obtain ⟨warnings, hnotices, hwarn⟩ := c.runBuiltin_notices s j b
      rw [act, hnotices, List.append_assoc, List.prefix_append_right_inj] at h
      rcases List.mem_append.mp (h.mem (List.mem_singleton_self _)) with hmem | hmem
      · obtain ⟨target, htarget⟩ := Builtin.run_notices _ _ _ _ _ _ hmem
        exact absurd htarget (c.spawning_ne_moving s path target)
      · exact absurd hmem (hwarning hwarn)
    | program other =>
      have hother := c.act_program_notices s j other
      have hsame := List.prefix_of_prefix_length_le hother h (by simp)
      rw [List.prefix_append_right_inj] at hsame
      have hpath := List.IsPrefix.eq_of_length hsame rfl
      rw [c.spawning_injective s (List.singleton_inj.mp hpath)]
    | nothing =>
      obtain ⟨warnings, hnotices, hwarn⟩ := c.reportMissing_notices j
      rw [act, hnotices, List.prefix_append_right_inj] at h
      exact absurd (h.mem (List.mem_singleton_self _)) (hwarning hwarn)
  · rintro rfl
    exact c.act_program_notices s j path

theorem act_nothing_iff (m : Meaning) : c.act s j m = c.act s j .nothing ↔ m = .nothing := by
  refine ⟨fun h => ?_, fun h => by rw [h]⟩
  cases m with
  | builtin b =>
    have hflow := congrArg Prod.fst h
    simp only [act, runBuiltin_emit] at hflow
    split at hflow
    · exact absurd hflow (Builtin.run_flow _ _ _ _ _)
    · cases hflow
  | program path =>
    have hspawning := (c.act_spawning_iff s j path (.program path)).mpr rfl
    rw [h, act_spawning_iff] at hspawning
    cases hspawning
  | nothing => rfl

end Command

/-! ## Lines -/

namespace Shell

variable {sh : Shell} {line : String}

theorem runLine_builtin {c : Command} {j : Job} {b : Builtin} (h : sh.job? line = some (c, j))
    (hname : b.name = c.name) :
    let ran := c.runBuiltin b sh.session j
    sh.runLine line = (ran.1, { sh with session := ran.2.1, host := ran.2.2 }) := by
  rw [runLine_job h, Session.meaning_eq_builtin.mpr hname]
  rfl

theorem job?_args (sh : Shell) {name : String} {args : List String}
    (h : splitWords line = (name :: args).map .arg) :
    let c : Command := ⟨name, args, .empty⟩
    sh.job? line = some (c, ⟨sh.host.note ⟨.debug, c.summary⟩, ⟨none, none, none⟩⟩) := by
  have hreading : sh.reading line = ⟨name :: args, .empty, [], [], sh.host.tree⟩ := by
    rw [reading, Resolved.ofLine, h, Resolved.ofWords, Resolved.run_args]
    rfl
  have hreported : sh.reported ⟨name :: args, .empty, [], [], sh.host.tree⟩ = sh.host := rfl
  have hopened (h : Host) : Command.job? ⟨name, args, .empty⟩ h = some ⟨h, ⟨none, none, none⟩⟩ :=
    rfl
  rw [job?, hreading, hreported]
  show Option.map _ (Command.job? ⟨name, args, .empty⟩ _) = _
  rw [hopened]
  rfl

end Shell

/-! ## What is told -/

namespace Builtin

def Report.text (r : Report) (channel : Channel) : String :=
  String.join ((r.writes.filter (·.1 = channel)).map (·.2))

variable {s : Session} {t : FileTree} {start : Location} {name : String}

def known? (s : Session) (t : FileTree) (start : Location) (name : String) : Option String :=
  if (ofName? name).isSome then some "a shell builtin"
  else (s.search.find? t start name).map (·.text)

theorem type_known {what : String} (h : known? s t start name = some what) :
    let told := type.run s t start [name]
    told.text .out = name ++ " is " ++ what ++ "\n" ∧ told.text .err = "" ∧
      told.flow = .goOn 0 := by
  have hjoin : " is a shell builtin\n" = " is " ++ "a shell builtin" ++ "\n" := by decide
  simp only [known?] at h
  simp only [run, runType, List.map_singleton, describe]
  split at h
  · rename_i hbuiltin
    cases h
    simp [hbuiltin, Report.text, String.join, hjoin, String.append_assoc]
  · rename_i hbuiltin
    obtain ⟨path, hfound, rfl⟩ := Option.map_eq_some_iff.mp h
    simp [hbuiltin, hfound, Report.text, String.join, String.append_assoc]

theorem type_unknown (h : known? s t start name = none) :
    let told := type.run s t start [name]
    told.text .out = "" ∧ told.text .err = name ++ ": not found\n" ∧ told.flow = .goOn 1 := by
  simp only [known?] at h
  simp only [run, runType, List.map_singleton, describe]
  split at h
  · cases h
  · rename_i hbuiltin
    have hmissing := Option.map_eq_none_iff.mp h
    simp [hbuiltin, hmissing, Report.text, String.join]

theorem known?_builtin {b : Builtin} (h : ofName? name = some b) :
    known? s t start name = some "a shell builtin" := by
  rw [known?, h]
  rfl

theorem known?_slash (h : '/' ∈ name.toList) : known? s t start name = none := by
  have hname : ofName? name = none := by
    rw [Option.eq_none_iff_forall_not_mem]
    intro b hb
    rw [← ofName?_eq_some.mp hb] at h
    exact b.noSlash h
  have hfound : s.search.find? t start name = none := by
    rw [SearchPath.find?, if_pos (by simp [h])]
  rw [known?, hname, hfound]
  rfl

theorem known?_bare (hname : ofName? name = none) (hslash : '/' ∉ name.toList) :
    known? s t start name =
      match s.meaning t start name with
      | .program path => some path.text
      | _ => none := by
  rw [known?, hname, Session.meaning_bare hname hslash]
  cases s.search.find? t start name <;> rfl

/-- What is known of a name is what it means, but nothing of a name with a slash. -/
theorem known?_eq_some {what : String} : known? s t start name = some what ↔
    (∃ b, s.meaning t start name = .builtin b) ∧ what = "a shell builtin" ∨
      '/' ∉ name.toList ∧ s.meaning t start name = .program ⟨what⟩ := by
  cases hname : ofName? name with
  | some b =>
    rw [known?_builtin hname, Session.meaning_of_ofName? hname]
    simp [eq_comm]
  | none =>
    have hother : ∀ b, s.meaning t start name ≠ .builtin b := by
      intro b hb
      rw [Session.meaning_eq_builtin, ← ofName?_eq_some, hname] at hb
      cases hb
    by_cases hslash : '/' ∈ name.toList
    · simp [known?_slash hslash, hslash, hother]
    · rw [known?_bare hname hslash]
      cases hmeaning : s.meaning t start name with
      | builtin b => exact absurd hmeaning (hother b)
      | program path =>
        have hpath : path = ⟨what⟩ ↔ path.text = what := ⟨congrArg Path.text, congrArg Path.mk⟩
        simp [hslash, hpath]
      | nothing => simp

theorem known?_eq_none : known? s t start name = none ↔
    s.meaning t start name = .nothing ∨ '/' ∈ name.toList := by
  rw [Option.eq_none_iff_forall_ne_some]
  simp only [ne_eq, known?_eq_some]
  cases hmeaning : s.meaning t start name with
  | builtin b =>
    have hslash : '/' ∉ name.toList := by
      rw [← Session.meaning_eq_builtin.mp hmeaning]
      exact b.noSlash
    simp [hslash]
  | program path =>
    constructor
    · intro h
      by_contra hfound
      exact h path.text (.inr ⟨fun hslash => hfound (.inr hslash), rfl⟩)
    · intro hslash
      simp [hslash.resolve_left nofun]
  | nothing => simp

theorem text_out_iff {what : String} :
    (type.run s t start [name]).text .out = name ++ " is " ++ what ++ "\n" ↔
      known? s t start name = some what := by
  constructor
  · intro hout
    cases hknown : known? s t start name with
    | some found =>
      rw [(type_known hknown).1] at hout
      have htext : found.toList = what.toList := by simpa using congrArg String.toList hout
      rw [String.toList_inj.mp htext]
    | none =>
      rw [(type_unknown hknown).1] at hout
      have hnil := congrArg String.toList hout
      simp at hnil
  · intro hknown
    exact (type_known hknown).1

theorem text_err_iff :
    (type.run s t start [name]).text .err = name ++ ": not found\n" ∧
      (type.run s t start [name]).flow = .goOn 1 ↔ known? s t start name = none := by
  constructor
  · rintro ⟨-, hflow⟩
    cases hknown : known? s t start name with
    | some found =>
      rw [(type_known hknown).2.2] at hflow
      cases hflow
    | none => rfl
  · intro hknown
    exact (type_unknown hknown).2

end Builtin

theorem Command.reportMissing_roomy (c : Command) {h : Host} (hroomy : h.stderr.isFull = false) :
    ∃ taken : Transcript, c.reportMissing ⟨h, ⟨none, none, none⟩⟩ = { h with stderr.taken := taken } ∧
      taken.bytes = h.stderr.bytes ++ Utf8.ofString (c.name ++ ": command not found\n") := by
  obtain ⟨named, hnamed, hname⟩ := Stderr.write_roomy hroomy (Utf8.ofString c.name)
  obtain ⟨taken, htaken, hrest⟩ :=
    Stderr.write_roomy (s := { h.stderr with taken := named }) hroomy
      (Utf8.ofString ": command not found\n")
  refine ⟨taken, ?_, ?_⟩
  · have hfirst : Outlets.write Channel.err (⟨h, ⟨none, none, none⟩⟩ : Job) (Utf8.ofString c.name) =
        (none, ⟨{ h with stderr.taken := named }, ⟨none, none, none⟩⟩) := by
      show Job.writeVia Job.share .err _ _ = _
      simp only [Job.writeVia, Job.handle, Job.share, hnamed]
    have hsecond : Outlets.write Channel.err
        (⟨{ h with stderr.taken := named }, ⟨none, none, none⟩⟩ : Job)
        (Utf8.ofString ": command not found\n") =
        (none, ⟨{ h with stderr.taken := taken }, ⟨none, none, none⟩⟩) := by
      show Job.writeVia Job.share .err _ _ = _
      simp only [Job.writeVia, Job.handle, Job.share, htaken]
    simp only [reportMissing, Outlets.writeAll, hfirst, hsecond]
  · rw [hrest, Utf8.ofString_append, ← List.append_assoc]
    exact congrArg (· ++ _) hname

namespace Builtin

/-- `type` tells what a name means: it says that the name is a builtin, or which
program it is, or that it is not found, as the command of that name runs the
builtin, starts the program, or reports that there is nothing to run. The one
exception are names with a slash, which are never found. -/
theorem type_meaning (s : Session) (h : Host) (name : String) (args : List String) :
    let told := type.run s h.tree h.start [name]
    let meaning := s.meaning h.tree h.start name
    let c : Command := ⟨name, args, .empty⟩
    let ran := c.execute s h
    let slashed := '/' ∈ name.toList
    (∀ b, meaning = .builtin b → ran = c.runBuiltin b s ⟨h, ⟨none, none, none⟩⟩) ∧
    (∀ path, h.journal.notices ++ [c.spawning s path] <+: ran.2.2.journal.notices ↔
      meaning = .program path) ∧
    (ran = (.goOn notFoundStatus, s, c.reportMissing ⟨h, ⟨none, none, none⟩⟩) ↔
      meaning = .nothing) ∧
    (h.stderr.isFull = false → ∃ taken : Transcript,
      c.reportMissing ⟨h, ⟨none, none, none⟩⟩ = { h with stderr.taken := taken } ∧
      taken.bytes = h.stderr.bytes ++ Utf8.ofString (name ++ ": command not found\n")) ∧
    (told.text .out = name ++ " is a shell builtin\n" ↔
      (∃ b, meaning = .builtin b) ∨ ¬slashed ∧ meaning = .program ⟨"a shell builtin"⟩) ∧
    (∀ path, told.text .out = name ++ " is " ++ path.text ++ "\n" ↔
      (∃ b, meaning = .builtin b) ∧ path.text = "a shell builtin" ∨
        ¬slashed ∧ meaning = .program path) ∧
    (told.text .err = name ++ ": not found\n" ∧ told.flow = .goOn 1 ↔
      meaning = .nothing ∨ slashed) := by
  intro told meaning c ran slashed
  have hran : ran = c.act s ⟨h, ⟨none, none, none⟩⟩ meaning := c.execute_job s rfl
  refine ⟨fun b hb => ?_, fun path => ?_, ?_, fun hroomy => c.reportMissing_roomy hroomy, ?_,
    fun path => ?_, ?_⟩
  · rw [hran, hb]
    rfl
  · rw [hran]
    exact c.act_spawning_iff s ⟨h, ⟨none, none, none⟩⟩ path meaning
  · rw [hran, ← c.act_nothing_iff s ⟨h, ⟨none, none, none⟩⟩ meaning]
    rfl
  · have hjoin : name ++ " is a shell builtin\n" = name ++ " is " ++ "a shell builtin" ++ "\n" := by
      simp [String.append_assoc]
    rw [hjoin, text_out_iff, known?_eq_some, and_iff_left rfl]
  · rw [text_out_iff, known?_eq_some]
  · rw [text_err_iff, known?_eq_none]

/-- A program in the working directory, by its path: the command starts it, and `type`
does not find it. -/
theorem type_slashed :
    let p : Program := ⟨false, false, false, [], [], none, 0, []⟩
    let t : FileTree := ⟨[(["tool"], .program p)]⟩
    let s : Session := ⟨⟨"/"⟩, none, ⟨[]⟩⟩
    let h : Host := ⟨t, [], none, .opened false, .empty, ⟨[], none, ""⟩⟩
    let c : Command := ⟨"./tool", [], .empty⟩
    let told := type.run s t [] ["./tool"]
    s.meaning t [] "./tool" = .program ⟨"/./tool"⟩ ∧
      (c.execute s h).2.2.journal.notices.head? = some (c.spawning s ⟨"/./tool"⟩) ∧
      told.text .out ≠ "./tool is /./tool\n" ∧
      told.text .err = "./tool: not found\n" ∧ told.flow = .goOn 1 ∧
      c.execute s h ≠ c.act s ⟨h, ⟨none, none, none⟩⟩ .nothing := by
  intro p t s h c told
  have hjoin : s.cwd.join "./tool" = ⟨"/./tool"⟩ := by decide +kernel
  have hexecutable : t.isExecutable [] ⟨"/./tool"⟩ = true := by
    have hwalkable : FileTree.Walkable ⟨"/./tool"⟩ :=
      ⟨by decide +kernel, by decide, by decide +kernel⟩
    have hsteps : (Path.mk "/./tool").steps = [".", "tool"] := by decide +kernel
    have hfile : t.node? ([] ++ ["tool"]) = some (.program p) := rfl
    rw [FileTree.isExecutable, FileTree.look, hwalkable.follow, ite_self, hsteps, FileTree.walk,
      if_pos rfl, FileTree.walk_leaf ⟨by decide, by decide, by decide +kernel, by decide +kernel⟩
        hfile (by decide) (by intro target h; cases h)]
    decide +kernel
  have hmeaning : s.meaning t [] "./tool" = .program ⟨"/./tool"⟩ := by
    rw [Session.meaning, Session.locate, if_pos (by decide), hjoin]
    dsimp only
    rw [if_pos hexecutable]
    rfl
  have hran : c.execute s h = c.act s ⟨h, ⟨none, none, none⟩⟩ (.program ⟨"/./tool"⟩) :=
    hmeaning ▸ c.execute_job s rfl
  have hunknown : known? s t [] "./tool" = none := known?_slash (by decide)
  obtain ⟨hout, herr, hflow⟩ := type_unknown hunknown
  refine ⟨hmeaning, ?_, ?_, herr, hflow, ?_⟩
  · obtain ⟨later, hnotices⟩ := c.act_program_notices s ⟨h, ⟨none, none, none⟩⟩ ⟨"/./tool"⟩
    rw [hran, ← hnotices]
    rfl
  · show told.text .out ≠ _
    rw [hout]
    decide
  · rw [hran, ne_eq, Command.act_nothing_iff]
    intro hnothing
    cases hnothing

end Builtin

end LineShell
