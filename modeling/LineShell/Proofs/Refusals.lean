import LineShell.Proofs.Delivering
import LineShell.Proofs.Dropping
import LineShell.Proofs.Moving
import LineShell.Proofs.Room

/-!
# Builtins that are refused

A builtin writes on two sides, each with its own room. If a side runs out of it, the
builtin ends with that refusal, and both sides have the beginning of what they would
have had. The session does not depend on the writing: only `cd` changes it, and then
it has written nothing.
-/

set_option autoImplicit false

namespace LineShell

namespace Channel

variable {α : Type}

def side : Channel → α × α → α
  | .out, sides => sides.1
  | .err, sides => sides.2

def put : Channel → α × α → α → α × α
  | .out, sides, next => (next, sides.2)
  | .err, sides, next => (sides.1, next)

theorem side_put_self (channel : Channel) (sides : α × α) (next : α) :
    channel.side (channel.put sides next) = next := by
  cases channel <;> rfl

theorem side_put_other {channel other : Channel} (h : other ≠ channel) (sides : α × α) (next : α) :
    other.side (channel.put sides next) = other.side sides := by
  cases channel <;> cases other <;> first | rfl | exact absurd rfl h

end Channel

namespace Outlets

def feed (sides : Recorder × Recorder) (told : List (Channel × String)) : Recorder × Recorder :=
  (sides.1.fedAll (Channel.out.pieces told), sides.2.fedAll (Channel.err.pieces told))

/-- The telling ends at a piece for which its side lacks room. What came before was taken,
and of the piece what there was room for. -/
inductive Cut (sides : Recorder × Recorder) :
    List (Channel × String) → OsError → Recorder × Recorder → Prop
  | at (said rest : List (Channel × String)) (channel : Channel) (text : String) {room : Nat}
      {refusal : OsError} {left : Recorder × Recorder}
      (roomy : ∀ other : Channel, (other.side sides).HasRoom (other.pieces said).flatten)
      (limit : (channel.side (feed sides said)).limit = some (room, refusal))
      (long : room < (Utf8.ofString text).length)
      (kept : (channel.side left).kept.bytes =
        (channel.side (feed sides said)).kept.bytes ++ (Utf8.ofString text).take room)
      (other : ∀ other ≠ channel, other.side left = other.side (feed sides said)) :
      Cut sides (said ++ (channel, text) :: rest) refusal left

variable {sides left : Recorder × Recorder} {channel : Channel} {text : String}
  {told : List (Channel × String)} {room : Nat} {refusal : OsError}

theorem side_feed (channel : Channel) (sides : Recorder × Recorder)
    (told : List (Channel × String)) :
    channel.side (feed sides told) = (channel.side sides).fedAll (channel.pieces told) := by
  cases channel <;> rfl

theorem write_side (channel : Channel) (sides : Recorder × Recorder) (bs : Bytes) :
    Outlets.write channel sides bs = ((Sink.write (channel.side sides) bs).1,
      channel.put sides (Sink.write (channel.side sides) bs).2) := by
  cases channel <;> rfl

theorem write_roomy (h : (channel.side sides).HasRoom (Utf8.ofString text)) :
    Outlets.write channel sides (Utf8.ofString text) = (none, feed sides [(channel, text)]) := by
  have hfeed : feed sides [(channel, text)] =
      channel.put sides ((channel.side sides).fed (Utf8.ofString text)) := by
    cases channel <;> rfl
  rw [write_side, Recorder.write_roomy h, hfeed]

theorem write_cramped (hlimit : (channel.side sides).limit = some (room, refusal))
    (hlong : room < (Utf8.ofString text).length) :
    ∃ left, Outlets.write channel sides (Utf8.ofString text) = (some refusal, left) ∧
      (channel.side left).kept.bytes =
        (channel.side sides).kept.bytes ++ (Utf8.ofString text).take room ∧
      ∀ other ≠ channel, other.side left = other.side sides := by
  obtain ⟨next, hwrite, hkept⟩ := Recorder.write_cramped hlimit hlong
  refine ⟨channel.put sides next, ?_, ?_, fun other hother => ?_⟩
  · rw [write_side, hwrite]
  · rwa [Channel.side_put_self]
  · exact Channel.side_put_other hother sides next

theorem feed_append (sides : Recorder × Recorder) (told more : List (Channel × String)) :
    feed sides (told ++ more) = feed (feed sides told) more := by
  simp only [feed, Channel.pieces_append, Recorder.fedAll_append]

theorem roomy_cons (hpiece : (channel.side sides).HasRoom (Utf8.ofString text))
    (htold : ∀ other : Channel,
      (other.side (feed sides [(channel, text)])).HasRoom (other.pieces told).flatten)
    (other : Channel) :
    (other.side sides).HasRoom (other.pieces ((channel, text) :: told)).flatten := by
  have hsplit : other.pieces ((channel, text) :: told) =
      other.pieces [(channel, text)] ++ other.pieces told :=
    Channel.pieces_append other [(channel, text)] told
  have hlater := htold other
  rw [side_feed] at hlater
  rw [hsplit, List.flatten_append]
  refine (Recorder.hasRoom_fedAll ?_).mp hlater
  by_cases hother : channel = other
  · subst hother
    rwa [Channel.pieces_self, List.flatten_singleton]
  · rw [Channel.pieces_other hother]
    exact Recorder.hasRoom_nil _

theorem Cut.after (hpiece : (channel.side sides).HasRoom (Utf8.ofString text))
    (h : Cut (feed sides [(channel, text)]) told refusal left) :
    Cut sides ((channel, text) :: told) refusal left := by
  obtain ⟨said, rest, last, cut, hroomy, hlimit, hlong, hkept, hother⟩ := h
  rw [← feed_append] at hlimit hkept hother
  exact .at ((channel, text) :: said) rest last cut (roomy_cons hpiece hroomy) hlimit hlong
    hkept hother

theorem writeAll_cases (sides : Recorder × Recorder) (told : List (Channel × String)) :
    (∀ channel : Channel, (channel.side sides).HasRoom (channel.pieces told).flatten) ∧
        writeAll sides told = (none, feed sides told) ∨
      ∃ refusal left, writeAll sides told = (some refusal, left) ∧ Cut sides told refusal left := by
  induction told generalizing sides with
  | nil => exact .inl ⟨fun _ => Recorder.hasRoom_nil _, rfl⟩
  | cons piece told ih =>
    obtain ⟨channel, text⟩ := piece
    by_cases hpiece : (channel.side sides).HasRoom (Utf8.ofString text)
    · have hwrite := write_roomy hpiece
      have hall : writeAll sides ((channel, text) :: told) =
          writeAll (feed sides [(channel, text)]) told := by
        rw [writeAll, hwrite]
      have hfeed : feed sides ((channel, text) :: told) =
          feed (feed sides [(channel, text)]) told := feed_append sides [(channel, text)] told
      rw [hall, hfeed]
      rcases ih (feed sides [(channel, text)]) with ⟨hroomy, htold⟩ | ⟨refusal, left, htold, hcut⟩
      · exact .inl ⟨roomy_cons hpiece hroomy, htold⟩
      · exact .inr ⟨refusal, left, htold, hcut.after hpiece⟩
    · obtain ⟨room, refusal, hlimit, hlong⟩ := Recorder.not_hasRoom hpiece
      obtain ⟨left, hwrite, hkept, hother⟩ := write_cramped hlimit hlong
      refine .inr ⟨refusal, left, by rw [writeAll, hwrite], ?_⟩
      exact .at [] told channel text (fun _ => Recorder.hasRoom_nil _) hlimit hlong hkept hother

theorem pieces_cut (channel : Channel) (said rest : List (Channel × String)) (text : String) :
    channel.pieces (said ++ (channel, text) :: rest) =
      channel.pieces said ++ Utf8.ofString text :: channel.pieces rest := by
  rw [Channel.pieces_append]
  exact congrArg (channel.pieces said ++ ·)
    ((Channel.pieces_append channel [(channel, text)] rest).trans
      (congrArg (· ++ channel.pieces rest) (Channel.pieces_self channel text)))

theorem Cut.exceeds (h : Cut sides told refusal left) :
    ∃ (channel : Channel) (room : Nat), (channel.side sides).limit = some (room, refusal) ∧
      room < (channel.pieces told).flatten.length := by
  obtain ⟨said, rest, channel, text, hroomy, hlimit, hlong, -, -⟩ := h
  rw [side_feed, Recorder.fedAll_limit, Option.map_eq_some_iff] at hlimit
  obtain ⟨⟨room, refusal⟩, hlimit, hleft⟩ := hlimit
  cases hleft
  refine ⟨channel, room, hlimit, ?_⟩
  have hsaid : (channel.pieces said).flatten.length ≤ room := hroomy channel _ hlimit
  rw [pieces_cut, List.flatten_append, List.flatten_cons, List.length_append, List.length_append]
  dsimp only at hlong
  omega

theorem Cut.begins (h : Cut sides told refusal left) (channel : Channel) :
    (channel.side left).kept.bytes <+:
      (channel.side sides).kept.bytes ++ (channel.pieces told).flatten := by
  obtain ⟨said, rest, last, text, -, -, -, hkept, hother⟩ := h
  by_cases hlast : channel = last
  · subst hlast
    rw [hkept, side_feed, Recorder.fedAll_bytes, pieces_cut, List.flatten_append,
      List.flatten_cons, List.append_assoc, List.prefix_append_right_inj,
      List.prefix_append_right_inj]
    exact (List.take_prefix _ _).trans (List.prefix_append _ _)
  · rw [hother channel hlast, side_feed, Recorder.fedAll_bytes, Channel.pieces_append,
      List.flatten_append, List.prefix_append_right_inj]
    exact List.prefix_append _ _

end Outlets

namespace Builtin

namespace Report

theorem deliver_cases (report : Report) (sides : Recorder × Recorder) :
    (∀ channel : Channel,
        (channel.side sides).HasRoom (channel.pieces report.writes).flatten) ∧
        report.deliver sides = (.ok report.flow, Outlets.feed sides report.writes) ∨
      ∃ refusal left, report.deliver sides = (.error refusal, left) ∧
        Outlets.Cut sides report.writes refusal left := by
  rcases Outlets.writeAll_cases sides report.writes with
    ⟨hroomy, htold⟩ | ⟨refusal, left, htold, hcut⟩
  · exact .inl ⟨hroomy, by rw [deliver, htold]⟩
  · exact .inr ⟨refusal, left, by rw [deliver, htold], hcut⟩

variable {sides : Recorder × Recorder}

theorem deliver_begins (report : Report) (sides : Recorder × Recorder) (channel : Channel) :
    (channel.side (report.deliver sides).2).kept.bytes <+:
      (channel.side sides).kept.bytes ++ (channel.pieces report.writes).flatten := by
  rcases report.deliver_cases sides with ⟨-, htold⟩ | ⟨refusal, left, htold, hcut⟩
  · have hall : (channel.side (report.deliver sides).2).kept.bytes =
        (channel.side sides).kept.bytes ++ (channel.pieces report.writes).flatten := by
      rw [htold, Outlets.side_feed, Recorder.fedAll_bytes]
    exact hall ▸ List.prefix_rfl
  · rw [htold]
    exact hcut.begins channel

theorem deliver_roomy {report : Report} (h : ∀ channel : Channel,
    (channel.side sides).HasRoom (channel.pieces report.writes).flatten) :
    report.deliver sides = (.ok report.flow, Outlets.feed sides report.writes) := by
  refine (report.deliver_cases sides).elim And.right ?_
  rintro ⟨refusal, left, -, hcut⟩
  obtain ⟨channel, room, hlimit, hlong⟩ := hcut.exceeds
  exact absurd (h channel _ hlimit) (Nat.not_le.mpr hlong)

theorem deliver_refused {report : Report} {refusal : OsError}
    (h : (report.deliver sides).1 = .error refusal) :
    Outlets.Cut sides report.writes refusal (report.deliver sides).2 := by
  rcases report.deliver_cases sides with ⟨-, htold⟩ | ⟨other, left, htold, hcut⟩
  · rw [htold] at h
    cases h
  · rw [htold] at h ⊢
    cases h
    exact hcut

theorem deliver_unlimited (report : Report) :
    report.deliver (Recorder.unlimited, Recorder.unlimited) =
      (.ok report.flow, Outlets.feed (.unlimited, .unlimited) report.writes) := by
  refine deliver_roomy fun channel limit hlimit => ?_
  cases channel <;> cases hlimit

end Report

variable (b : Builtin) (s : Session) (h : Host) (args : List String)

/-- Only `cd` changes anything, and then it has nothing to say. -/
theorem run_moves (t : FileTree) (start : Location) :
    (b.run s t start args).session = s ∧ (b.run s t start args).notices = [] ∨
      b = .cd ∧ ∃ target,
        b.run s t start args = ⟨[], .goOn 0, { s with cwd := target }, [moving s target]⟩ := by
  have hdoes := b.run_does s t start args
  generalize b.run s t start args = report at hdoes ⊢
  cases hdoes with
  | speaks | leaves | describes => exact .inl ⟨rfl, rfl⟩
  | moves name target => exact .inr ⟨name, target, rfl⟩

theorem run_host :
    let report := b.run s h.tree h.start args
    let after := h.noteAll report.notices
    (after = h ∨ after = h.note (moving s report.session.cwd)) ∧ h.Noted after ∧
      (h.records .debug = false → after.tree = h.tree) := by
  intro report after
  refine ⟨?_, h.noteAll_noted _, fun hquiet => ?_⟩
  · rcases b.run_moves s args h.tree h.start with ⟨-, hnotices⟩ | ⟨-, target, hreport⟩
    · refine .inl ?_
      simp only [after, report, hnotices]
      rfl
    · refine .inr ?_
      simp only [after, report, hreport]
      rfl
  · have hafter : after = { h with journal.notices := h.journal.notices ++ report.notices } := by
      refine Host.noteAll_unrecorded fun n hn => ?_
      obtain ⟨target, rfl⟩ := run_notices b s h.tree h.start args n hn
      exact hquiet
    exact congrArg (·.tree) hafter

/-- A builtin on two writers that may have little room, beside the same with all the room.
The session and the files do not depend on the writers. Only `cd` changes the session, and
only its working directory; it is done then, and one line in the event log may tell of it.
A writer that runs out of room ends the builtin, and each of them has the beginning of what
it would have had. -/
theorem run_refusable (out err : Option (Nat × OsError)) :
    let report := b.run s h.tree h.start args
    let after := h.noteAll report.notices
    let sides : Recorder × Recorder := (⟨out, .empty⟩, ⟨err, .empty⟩)
    let part := report.deliver sides
    let full := report.deliver (Recorder.unlimited, Recorder.unlimited)
    (report.session.home = s.home ∧ report.session.search = s.search) ∧
      (report.session.cwd ≠ s.cwd ∨ after ≠ h → b = .cd ∧ part.1 = .ok (.goOn 0)) ∧
      (after = h ∨ after = h.note (moving s report.session.cwd)) ∧
      h.Noted after ∧ (h.records .debug = false → after.tree = h.tree) ∧
      full.1 = .ok report.flow ∧
      (∀ channel : Channel,
        (channel.side part.2).kept.bytes <+: (channel.side full.2).kept.bytes) ∧
      ((∀ channel : Channel,
          (channel.side sides).HasRoom (channel.side full.2).kept.bytes) →
        part.1 = full.1 ∧ ∀ channel : Channel,
          (channel.side part.2).kept.bytes = (channel.side full.2).kept.bytes) ∧
      ∀ e, part.1 = .error e → Outlets.Cut sides report.writes e part.2 ∧
        ∃ (channel : Channel) (room : Nat), (channel.side sides).limit = some (room, e) ∧
          room < (channel.side full.2).kept.bytes.length := by
  intro report after sides part full
  have hfull : full = (.ok report.flow, Outlets.feed (.unlimited, .unlimited) report.writes) :=
    report.deliver_unlimited
  have hwhole (channel : Channel) :
      (channel.side full.2).kept.bytes = (channel.pieces report.writes).flatten := by
    rw [hfull, Outlets.side_feed, Recorder.fedAll_bytes]
    cases channel <;> rfl
  have hempty (channel : Channel) : (channel.side sides).kept.bytes = [] := by
    cases channel <;> rfl
  obtain ⟨hnoted, hlog, hquiet⟩ := b.run_host s h args
  refine ⟨?_, fun hchanged => ?_, hnoted, hlog, hquiet, congrArg Prod.fst hfull,
    fun channel => ?_, fun hroom => ?_, fun e hpart => ?_⟩
  · rcases b.run_moves s args h.tree h.start with ⟨hsession, -⟩ | ⟨-, target, hreport⟩
    · exact ⟨congrArg (·.home) hsession, congrArg (·.search) hsession⟩
    · exact ⟨congrArg (·.session.home) hreport, congrArg (·.session.search) hreport⟩
  · rcases b.run_moves s args h.tree h.start with ⟨hsession, hnotices⟩ | ⟨hname, target, hreport⟩
    · refine absurd hchanged (not_or.mpr ⟨fun hcwd => hcwd (congrArg (·.cwd) hsession), ?_⟩)
      exact fun hafter => hafter (congrArg h.noteAll hnotices)
    · exact ⟨hname, congrArg (fun report => (report.deliver sides).1) hreport⟩
  · have hbegins := report.deliver_begins sides channel
    rwa [hempty, List.nil_append, ← hwhole] at hbegins
  · have hpart : part = (.ok report.flow, Outlets.feed sides report.writes) :=
      Report.deliver_roomy fun channel => hwhole channel ▸ hroom channel
    refine ⟨by rw [hpart, hfull], fun channel => ?_⟩
    rw [hwhole, hpart, Outlets.side_feed, Recorder.fedAll_bytes, hempty, List.nil_append]
  · have hcut := Report.deliver_refused hpart
    obtain ⟨channel, room, hlimit, hlong⟩ := hcut.exceeds
    exact ⟨hcut, channel, room, hlimit, hwhole channel ▸ hlong⟩

/-- A log that takes the notice of a move is a file that has changed. -/
theorem run_refusable_logged :
    let h := (Shell.logging .debug).host
    let report := cd.run ⟨⟨"/"⟩, none, ⟨[]⟩⟩ h.tree h.start ["/"]
    (report.deliver (Recorder.unlimited, Recorder.unlimited)).1 = .ok (.goOn 0) ∧
      (h.noteAll report.notices).tree ≠ h.tree := by
  intro h report
  let s : Session := ⟨⟨"/"⟩, none, ⟨[]⟩⟩
  have hdir : s.directory "/" = ⟨"/" ++ "/".intercalate []⟩ := by decide +kernel
  have hdirectory : h.tree.isDirectory h.start (s.directory "/") = true := by
    rw [hdir, FileTree.isDirectory, FileTree.look_location h.start (List.forall_mem_nil _)
      FileTree.Grounded.root (by decide +kernel)]
  have hreport : report = runCd s h.tree h.start ["/"] := rfl
  rw [hreport, runCd_enters hdirectory, hdir]
  exact ⟨rfl, by decide +kernel⟩

end Builtin

end LineShell
