import LineShell.Proofs.Contents

/-!
# Hosts alike

No command asks what was shown, logged or complained of before it. Two hosts that
differ in such things, or in what the log file holds, are related; where each single
action answers alike on both and keeps them related, whole commands and lines do,
unless a program copies that file. A relation of a host with itself is an invariant.
-/

set_option autoImplicit false

namespace LineShell

namespace Host

/-- An action answers alike on related hosts and leaves them related. -/
def Keeps {α : Type} (R : Host → Host → Prop) (act : Host → α × Host) : Prop :=
  ∀ ⦃h h' : Host⦄, R h h' → ∃ answer k k',
    act h = (answer, k) ∧ act h' = (answer, k') ∧ R k k'

end Host

namespace Job

def Keeps {α : Type} (R : Host → Host → Prop) (act : Job → α × Job) : Prop :=
  ∀ ⦃h h' : Host⦄ (streams : Streams), R h h' → ∃ answer left k k',
    act ⟨h, streams⟩ = (answer, ⟨k, left⟩) ∧ act ⟨h', streams⟩ = (answer, ⟨k', left⟩) ∧ R k k'

end Job

/-- A relation of hosts that files, notices and messages do not break. The log file, if
it is given, may hold something else in each. -/
structure Host.Steady (log : Option Location) (R : Host → Host → Prop) : Prop where
  tree {h h' : Host} : R h h' → h.tree.SameBut log h'.tree
  start {h h' : Host} : R h h' → h'.start = h.start
  path {h h' : Host} : R h h' → h'.path = h.path
  place {h h' : Host} : R h h' → h'.logPlace? = h.logPlace?
  owned {h h' : Host} : R h h' → ∀ loc ∈ log, loc ∈ h.logPlace?
  mute {h h' : Host} : R h h' → h'.stderr.isFull = h.stderr.isFull
  setTree {h h' : Host} {t u : FileTree} (same : t.SameBut log u) : R h h' →
    R { h with tree := t } { h' with tree := u }
  note {h h' : Host} (n : Notice) : R h h' → R (h.note n) (h'.note n)
  err {h h' : Host} (bs : Bytes) : R h h' →
    R { h with stderr := h.stderr.push bs } { h' with stderr := h'.stderr.push bs }

def Host.onStdout (act : Stdout → Option OsError × Stdout) (h : Host) : Option OsError × Host :=
  ((act h.stdout).1, { h with stdout := (act h.stdout).2 })

/-- What programs and builtins put out does not break it either. -/
structure Host.Similar (log : Option Location) (R : Host → Host → Prop) : Prop
    extends Host.Steady log R where
  inherit (bs : Bytes) : Host.Keeps R fun h => Job.inherit .out h bs
  emit (b : Builtin) (s : Session) (t : FileTree) (start : Location) (args : List String) :
    Job.Keeps R fun j => Outlets.emit j (b.run s t start args).writes

namespace Host

variable {log : Option Location} {R : Host → Host → Prop} {h h' : Host}

theorem Steady.noteAll (hR : Steady log R) (ns : List Notice) (hrel : R h h') :
    R (h.noteAll ns) (h'.noteAll ns) := by
  induction ns generalizing h h' with
  | nil => exact hrel
  | cons n ns ih => exact ih (hR.note n hrel)

theorem Steady.complain (hR : Steady log R) (text : String) (hrel : R h h') :
    R (h.complain text) (h'.complain text) :=
  hR.err _ hrel

theorem Steady.complainAll (hR : Steady log R) (errors : List Redirect.Error) (hrel : R h h') :
    R (h.complainAll errors) (h'.complainAll errors) := by
  induction errors generalizing h h' with
  | nil => exact hrel
  | cons e errors ih => exact ih (hR.complain _ hrel)

end Host

/-! ## Notices -/

namespace Host

variable (h : Host) (n : Notice)

theorem note_eq : ∃ tree file, file.map Prod.snd = h.journal.file.map Prod.snd ∧
    ∀ stdout stderr notices,
      ({ h with stdout, stderr, journal.notices := notices } : Host).note n =
        { h with tree, stdout, stderr, journal := ⟨notices ++ [n], file, h.journal.clock⟩ } := by
  unfold note
  dsimp only
  rcases h.journal.file with _ | ⟨handle, threshold⟩
  · exact ⟨h.tree, none, rfl, fun _ _ _ => rfl⟩
  dsimp only
  by_cases hlevel : threshold.admits n.level
  · simp only [if_pos hlevel]
    rcases h.tree.write handle (Utf8.ofString (logLine h.journal.clock n)) with e | ⟨tree, handle⟩
    · exact ⟨h.tree, _, rfl, fun _ _ _ => rfl⟩
    · exact ⟨tree, some (handle, threshold), rfl, fun _ _ _ => rfl⟩
  · simp only [if_neg hlevel]
    exact ⟨h.tree, _, rfl, fun _ _ _ => rfl⟩

theorem note_start : (h.note n).start = h.start := by
  obtain ⟨tree, file, -, hnote⟩ := h.note_eq n
  rw [show h.note n = _ from hnote h.stdout h.stderr h.journal.notices]

theorem note_path : (h.note n).path = h.path := by
  obtain ⟨tree, file, -, hnote⟩ := h.note_eq n
  rw [show h.note n = _ from hnote h.stdout h.stderr h.journal.notices]

theorem note_clock : (h.note n).journal.clock = h.journal.clock := by
  obtain ⟨tree, file, -, hnote⟩ := h.note_eq n
  rw [show h.note n = _ from hnote h.stdout h.stderr h.journal.notices]

theorem note_stdout : (h.note n).stdout = h.stdout := by
  obtain ⟨tree, file, -, hnote⟩ := h.note_eq n
  rw [show h.note n = _ from hnote h.stdout h.stderr h.journal.notices]

theorem stderr_note : (h.note n).stderr = h.stderr := by
  obtain ⟨tree, file, -, hnote⟩ := h.note_eq n
  rw [show h.note n = _ from hnote h.stdout h.stderr h.journal.notices]

theorem notices_note : (h.note n).journal.notices = h.journal.notices ++ [n] := by
  obtain ⟨tree, file, -, hnote⟩ := h.note_eq n
  rw [show h.note n = _ from hnote h.stdout h.stderr h.journal.notices]

end Host

/-! ## Writing -/

namespace Job

variable {log : Option Location} {R : Host → Host → Prop}

theorem writeVia_keeps (hR : Host.Steady log R)
    {action : Channel → Host → Bytes → Option OsError × Host} {channel : Channel} {bs : Bytes}
    (haction : Host.Keeps R fun h => action channel h bs) :
    Keeps R fun j => j.writeVia action channel bs := by
  intro h h' streams hrel
  have hhandle (k : Host) : (⟨k, streams⟩ : Job).handle channel =
      (⟨h, streams⟩ : Job).handle channel := by cases channel <;> rfl
  simp only [writeVia, hhandle]
  rcases (⟨h, streams⟩ : Job).handle channel with _ | handle
  · obtain ⟨answer, k, k', hk, hk', hkept⟩ := haction hrel
    exact ⟨answer, streams, k, k', by simp only [hk], by simp only [hk'], hkept⟩
  · obtain ⟨e, hw, hw'⟩ | ⟨t, u, next, hw, hw', hwritten⟩ := (hR.tree hrel).write handle bs
    · simp only [hw, hw']
      exact ⟨some e, streams, h, h', rfl, rfl, hrel⟩
    · simp only [hw, hw']
      cases channel
      · exact ⟨none, _, _, _, rfl, rfl, hR.setTree hwritten hrel⟩
      · exact ⟨none, _, _, _, rfl, rfl, hR.setTree hwritten hrel⟩

theorem share_out_keeps (hwrite : ∀ bs, Host.Keeps R (Host.onStdout (·.write bs))) (bs : Bytes) :
    Host.Keeps R fun h => share .out h bs := by
  have hshare : (fun h => share .out h bs) = Host.onStdout (·.write bs) := by
    funext h
    rcases hw : h.stdout.write bs with ⟨failure, stdout⟩
    simp only [share, Host.onStdout, hw]
  rw [hshare]
  exact hwrite bs

theorem share_err_keeps (hR : Host.Steady log R) (bs : Bytes) :
    Host.Keeps R fun h => share .err h bs := by
  intro h h' hrel
  simp only [share, Stderr.write, hR.mute hrel]
  by_cases hbs : bs.isEmpty
  · simp only [if_pos hbs]
    exact ⟨none, h, h', rfl, rfl, hrel⟩
  by_cases hfull : h.stderr.isFull = true
  · simp only [if_neg hbs, if_pos hfull]
    exact ⟨some .noSpace, h, h', rfl, rfl, hrel⟩
  · simp only [if_neg hbs, if_neg hfull]
    exact ⟨none, _, _, rfl, rfl, hR.err bs hrel⟩

theorem inherit_err_keeps (hR : Host.Steady log R) (bs : Bytes) :
    Host.Keeps R fun h => inherit .err h bs :=
  share_err_keeps hR bs

theorem writeAll_keeps (hR : Host.Steady log R) {pieces : List (Channel × String)}
    (hshare : ∀ piece ∈ pieces, Host.Keeps R fun h => share piece.1 h (Utf8.ofString piece.2)) :
    Keeps R fun j => Outlets.writeAll j pieces := by
  induction pieces with
  | nil =>
    intro h h' streams hrel
    exact ⟨none, streams, h, h', rfl, rfl, hrel⟩
  | cons piece pieces ih =>
    obtain ⟨channel, text⟩ := piece
    intro h h' streams hrel
    have hfirst : Keeps R fun j => Outlets.write channel j (Utf8.ofString text) :=
      writeVia_keeps hR (hshare (channel, text) (by simp))
    obtain ⟨failure, left, k, k', hk, hk', hkept⟩ := hfirst streams hrel
    simp only [Outlets.writeAll, hk, hk']
    cases failure with
    | none => exact ih (fun piece hpiece => hshare piece (by simp [hpiece])) left hkept
    | some e => exact ⟨some e, left, k, k', rfl, rfl, hkept⟩

theorem flush_keeps (hflush : Host.Keeps R (Host.onStdout Stdout.flush)) :
    Keeps R fun j => Outlets.flush .out j := by
  intro h h' streams hrel
  cases hstdout : streams.stdout with
  | some handle =>
    have hidle (k : Host) : Outlets.flush Channel.out (⟨k, streams⟩ : Job) = (none, ⟨k, streams⟩) := by
      show flush .out ⟨k, streams⟩ = _
      simp only [flush, hstdout]
    exact ⟨none, streams, h, h', hidle h, hidle h', hrel⟩
  | none =>
    have hown (k : Host) : Outlets.flush Channel.out (⟨k, streams⟩ : Job) =
        ((k.onStdout Stdout.flush).1, ⟨(k.onStdout Stdout.flush).2, streams⟩) := by
      show flush .out ⟨k, streams⟩ = _
      simp only [flush, hstdout, Host.onStdout]
    obtain ⟨failure, k, k', hk, hk', hkept⟩ := hflush hrel
    exact ⟨failure, streams, k, k', (hown h).trans (by rw [hk]), (hown h').trans (by rw [hk']), hkept⟩

/-- Where writing and flushing keep hosts related, so does all that a builtin can put out. -/
theorem emit_keeps (hR : Host.Steady log R)
    (hwrite : ∀ bs, Host.Keeps R (Host.onStdout (·.write bs)))
    (hflush : Host.Keeps R (Host.onStdout Stdout.flush))
    (pieces : List (Channel × String)) : Keeps R fun j => Outlets.emit j pieces := by
  intro h h' streams hrel
  have hpieces : ∀ piece ∈ pieces,
      Host.Keeps R fun h => share piece.1 h (Utf8.ofString piece.2) := by
    rintro ⟨channel, text⟩ -
    cases channel with
    | out => exact share_out_keeps hwrite _
    | err => exact share_err_keeps hR _
  obtain ⟨failure, left, k, k', hk, hk', hkept⟩ := writeAll_keeps hR hpieces streams hrel
  simp only [Outlets.emit, hk, hk']
  cases failure with
  | some e => exact ⟨some e, left, k, k', rfl, rfl, hkept⟩
  | none =>
    obtain ⟨failure, left, l, l', hl, hl', hflushed⟩ := flush_keeps hflush left hkept
    simp only [Outlets.flushAll, hl, hl']
    cases failure with
    | some e => exact ⟨some e, left, l, l', rfl, rfl, hflushed⟩
    | none => exact ⟨none, left, l, l', rfl, rfl, hflushed⟩

end Job

theorem Host.Similar.of_stdout {log : Option Location} {R : Host → Host → Prop}
    (hR : Host.Steady log R)
    (hpass : ∀ bs, Host.Keeps R (Host.onStdout (·.pass bs)))
    (hwrite : ∀ bs, Host.Keeps R (Host.onStdout (·.write bs)))
    (hflush : Host.Keeps R (Host.onStdout Stdout.flush)) : Host.Similar log R where
  toSteady := hR
  inherit := hpass
  emit _ _ _ _ _ := Job.emit_keeps hR hwrite hflush _

/-! ## Programs -/

namespace Launch

variable {log : Option Location} {R : Host → Host → Prop} {h h' : Host}

theorem writeAll_keeps (hR : Host.Similar log R) (writes : List (Channel × Bytes))
    (streams : Streams) (hrel : R h h') : ∃ left k k', writeAll ⟨h, streams⟩ writes = ⟨k, left⟩ ∧
      writeAll ⟨h', streams⟩ writes = ⟨k', left⟩ ∧ R k k' := by
  induction writes generalizing h h' streams with
  | nil => exact ⟨streams, h, h', rfl, rfl, hrel⟩
  | cons write writes ih =>
    obtain ⟨channel, bs⟩ := write
    have hinherit : Host.Keeps R fun h => Job.inherit channel h bs := by
      cases channel with
      | out => exact hR.inherit bs
      | err => exact Job.inherit_err_keeps hR.toSteady bs
    obtain ⟨failure, left, k, k', hk, hk', hkept⟩ :=
      Job.writeVia_keeps hR.toSteady hinherit streams hrel
    simp only [writeAll, List.foldl_cons, hk, hk']
    exact ih left hkept

theorem writeAll_stdin (j : Job) (writes : List (Channel × Bytes)) :
    (writeAll j writes).streams.stdin = j.streams.stdin := by
  induction writes generalizing j with
  | nil => rfl
  | cons write writes ih =>
    refine (ih _).trans ?_
    show (j.writeVia Job.inherit write.1 write.2).2.streams.stdin = _
    unfold Job.writeVia
    split
    · split
      · cases write.1 <;> rfl
      · rfl
    · rfl

theorem input_sameBut {k k' : Host} {streams : Streams} (htree : k.tree.SameBut log k'.tree)
    (hstdin : ∀ loc ∈ log, streams.stdin ≠ some loc) :
    input ⟨k', streams⟩ = input ⟨k, streams⟩ := by
  unfold input
  cases hin : streams.stdin with
  | none => rfl
  | some loc =>
    rcases htree.node loc with hsame | ⟨hlog, -⟩
    · simp only [Option.bind_some, hsame]
    · exact absurd hin (hstdin loc hlog)

theorem perform_keeps (hR : Host.Similar log R) (p : Program) (args : List String) (dir : Location)
    (streams : Streams)
    (hstdin : p.copiesInput = true → ∀ loc ∈ log, streams.stdin ≠ some loc) (hrel : R h h') :
    ∃ left k k', perform ⟨h, streams⟩ p args dir = ⟨k, left⟩ ∧
      perform ⟨h', streams⟩ p args dir = ⟨k', left⟩ ∧ R k k' := by
  have hleft := writeAll_stdin ⟨h, streams⟩ (p.opening args dir)
  obtain ⟨left, k, k', hk, hk', hkept⟩ := writeAll_keeps hR (p.opening args dir) streams hrel
  rw [hk] at hleft
  simp only [perform, hk, hk']
  split
  · rename_i hcopies
    rw [input_sameBut (hR.tree hkept) fun loc hlog => hleft ▸ hstdin hcopies loc hlog]
    obtain ⟨left, l, l', hl, hl', hcopied⟩ := writeAll_keeps hR [(.out, input ⟨k, left⟩)] left hkept
    simp only [hl, hl']
    exact writeAll_keeps hR p.closing left hcopied
  · exact writeAll_keeps hR p.closing left hkept

end Launch

/-! ## Commands -/

namespace Command

variable {log : Option Location} {R : Host → Host → Prop} {h h' : Host}

theorem runBuiltin_keeps (hR : Host.Similar log R) (c : Command) (b : Builtin) (s : Session)
    (streams : Streams) (hrel : R h h') : ∃ flow session k k',
      c.runBuiltin b s ⟨h, streams⟩ = (flow, session, k) ∧
      c.runBuiltin b s ⟨h', streams⟩ = (flow, session, k') ∧ R k k' := by
  simp only [runBuiltin_emit, Builtin.run_sameBut (hR.tree hrel), hR.start hrel]
  have hnoted := hR.noteAll (b.run s h.tree h.start c.args).notices hrel
  obtain ⟨failure, left, k, k', hk, hk', hkept⟩ :=
    hR.emit b s h.tree h.start c.args streams hnoted
  simp only [hk, hk']
  cases failure with
  | none => exact ⟨_, _, k, k', rfl, rfl, hkept⟩
  | some e => exact ⟨_, _, _, _, rfl, rfl, hR.note _ hkept⟩

theorem reportMissing_keeps (hR : Host.Similar log R) (c : Command) (streams : Streams)
    (hrel : R h h') : R (c.reportMissing ⟨h, streams⟩) (c.reportMissing ⟨h', streams⟩) := by
  have hpieces : ∀ piece ∈ [(Channel.err, c.name), (Channel.err, ": command not found\n")],
      Host.Keeps R fun h => Job.share piece.1 h (Utf8.ofString piece.2) := by
    intro piece hpiece
    have herr : piece.1 = .err := by
      simp only [List.mem_cons, List.not_mem_nil, or_false] at hpiece
      rcases hpiece with rfl | rfl <;> rfl
    rw [herr]
    exact Job.share_err_keeps hR.toSteady _
  obtain ⟨failure, left, k, k', hk, hk', hkept⟩ :=
    Job.writeAll_keeps hR.toSteady hpieces streams hrel
  simp only [reportMissing, hk, hk']
  cases failure with
  | none => exact hkept
  | some e => exact hR.note _ hkept

theorem runProgram_keeps (hR : Host.Similar log R) (c : Command) (s : Session) (streams : Streams)
    (hfree : ∀ path, s.locate h.tree h.start c.name = some path → ∀ loc ∈ log,
      ¬ Launch.Copies ⟨h.note (c.spawning s path), streams⟩ s path c.args loc)
    (hrel : R h h') : ∃ flow k k', c.runProgram s ⟨h, streams⟩ = (flow, k) ∧
      c.runProgram s ⟨h', streams⟩ = (flow, k') ∧ R k k' := by
  simp only [runProgram, Session.locate_sameBut (hR.tree hrel), hR.start hrel]
  rcases hpath : s.locate h.tree h.start c.name with _ | path
  · exact ⟨_, _, _, rfl, rfl, reportMissing_keeps hR c streams hrel⟩
  · have hunread := hfree path hpath
    have hnoted := hR.note (c.spawning s path) hrel
    have hprepare := Launch.prepare_sameBut (hR.tree hnoted) (hR.start hnoted) (hR.path hnoted)
      (hR.place hnoted) (hR.owned hnoted) streams s path c.args
    dsimp only
    rw [spawning] at hprepare hunread hnoted
    rw [hprepare]
    rcases hprepared : Launch.prepare _ s path c.args with e | ⟨p, args, dir⟩
    · exact ⟨_, _, _, rfl, rfl, hR.complain _ hnoted⟩
    · have hstdin : p.copiesInput = true → ∀ loc ∈ log, streams.stdin ≠ some loc :=
        fun hcopies loc hlog hin => hunread loc hlog ⟨_, _, _, hprepared, hcopies, hin⟩
      obtain ⟨left, k, k', hk, hk', hkept⟩ :=
        Launch.perform_keeps hR p args dir streams hstdin hnoted
      exact ⟨.goOn p.exitStatus, k, k', by simp only [hk], by simp only [hk'], hkept⟩

theorem execute_keeps (hR : Host.Similar log R) (c : Command) (s : Session)
    (hfree : ∀ loc ∈ log, ¬ c.Copies s h loc) (hrel : R h h') :
    ∃ flow session k k', c.execute s h = (flow, session, k) ∧
      c.execute s h' = (flow, session, k') ∧ R k k' := by
  have hsame := Streams.ofTable_sameBut h.start (hR.tree hrel) c.redirects
  rw [show Streams.ofTable h'.tree h.start = Streams.ofTable h'.tree h'.start by
    rw [hR.start hrel]] at hsame
  simp only [execute]
  rcases hleft : Streams.ofTable h.tree h.start c.redirects with ⟨result, t⟩
  rcases hright : Streams.ofTable h'.tree h'.start c.redirects with ⟨result', u⟩
  rw [hleft, hright] at hsame
  obtain rfl : result' = result := hsame.1
  have hopened : R { h with tree := t } { h' with tree := u } := hR.setTree hsame.2 hrel
  rcases result' with e | streams
  · exact ⟨_, _, _, _, rfl, rfl, hR.complain _ hopened⟩
  dsimp only
  cases hname : Builtin.ofName? c.name with
  | some b => exact c.runBuiltin_keeps hR b s streams hopened
  | none =>
    have hjob : c.job? h = some ⟨{ h with tree := t }, streams⟩ := by
      rw [job?, hleft]
    have hunread (path : Path) (hpath : s.locate t h.start c.name = some path) (loc : Location)
        (hlog : loc ∈ log) : ¬ Launch.Copies
          ⟨({ h with tree := t } : Host).note (c.spawning s path), streams⟩ s path c.args loc := by
      have hmeaning : s.meaning t h.start c.name = .program path := by
        rw [Session.meaning, hname]
        simp only [hpath]
      exact fun hcopies => hfree loc hlog ⟨_, path, hjob, hmeaning, hcopies⟩
    obtain ⟨flow, k, k', hk, hk', hkept⟩ := c.runProgram_keeps hR s streams hunread hopened
    exact ⟨flow, s, k, k', by simp only [hk], by simp only [hk'], hkept⟩

end Command

namespace Shell

variable {log : Option Location} {R : Host → Host → Prop} {h h' : Host}

theorem perform_keeps (hR : Host.Similar log R) (sh : Shell) (command? : Option Command)
    (hfree : ∀ c ∈ command?, ∀ loc ∈ log,
      ¬ c.Copies sh.session (h.note ⟨.debug, c.summary⟩) loc)
    (hrel : R h h') : ∃ flow session k k',
      sh.perform command? h = (flow, { sh with session, host := k }) ∧
      sh.perform command? h' = (flow, { sh with session, host := k' }) ∧ R k k' := by
  cases command? with
  | none => exact ⟨_, _, h, h', rfl, rfl, hrel⟩
  | some c =>
    obtain ⟨flow, session, k, k', hk, hk', hkept⟩ :=
      c.execute_keeps hR sh.session (hfree c rfl) (hR.note ⟨.debug, c.summary⟩ hrel)
    exact ⟨flow, session, k, k', by simp only [perform, hk], by simp only [perform, hk'], hkept⟩

/-- A line does the same on both sides, unless it runs a program that copies that file. -/
theorem runLine_keeps (hR : Host.Similar log R) (sh : Shell) (line : String)
    (hfree : ∀ loc ∈ log, ¬ sh.Copies line loc) (hrel : R sh.host h') : ∃ flow session k k',
      sh.runLine line = (flow, { sh with session, host := k }) ∧
      ({ sh with host := h' } : Shell).runLine line = (flow, { sh with session, host := k' }) ∧
      R k k' := by
  let sh' : Shell := { sh with host := h' }
  have hread : (sh.reading line).SameBut log (sh'.reading line) := by
    rw [reading, reading, show sh'.host.start = sh.host.start from hR.start hrel]
    exact Resolved.ofLine_sameBut (hR.tree hrel) _ _ _
  have hreported : R (sh.reported (sh.reading line)) (sh'.reported (sh'.reading line)) := by
    rw [reported, reported, hread.notices, hread.errors]
    exact hR.complainAll _ (hR.noteAll _ (hR.setTree hread.state hrel))
  obtain ⟨flow, session, k, k', hk, hk', hkept⟩ := sh.perform_keeps hR (sh.reading line).command?
    (fun c hc loc hlog hcopies => hfree loc hlog ⟨c, hc, hcopies⟩) hreported
  refine ⟨flow, session, k, k', (sh.runLine_perform line).trans hk, ?_, hkept⟩
  show sh'.runLine line = _
  rw [runLine_perform, hread.command?]
  exact hk'

end Shell

/-! ## Invariants -/

/-- What is true of a host whatever happens to it. -/
structure Host.Lasting (P : Host → Prop) : Prop where
  setTree {h : Host} (tree : FileTree) : P h → P { h with tree }
  note {h : Host} (n : Notice) : P h → P (h.note n)
  err {h : Host} (bs : Bytes) : P h → P { h with stderr := h.stderr.push bs }
  inherit {h : Host} (bs : Bytes) : P h → P (Job.inherit .out h bs).2
  emit {h : Host} (b : Builtin) (s : Session) (t : FileTree) (start : Location)
    (args : List String) (streams : Streams) : P h →
    P (Outlets.emit (⟨h, streams⟩ : Job) (b.run s t start args).writes).2.host

namespace Host

variable {P : Host → Prop}

theorem Steady.of_invariant (setTree : ∀ {h : Host} (tree : FileTree), P h → P { h with tree })
    (note : ∀ {h : Host} (n : Notice), P h → P (h.note n))
    (err : ∀ {h : Host} (bs : Bytes), P h → P { h with stderr := h.stderr.push bs }) :
    Steady none fun h h' => h' = h ∧ P h where
  tree hrel := congrArg Host.tree hrel.1
  start hrel := by rw [hrel.1]
  path hrel := by rw [hrel.1]
  place hrel := by rw [hrel.1]
  owned _ _ hloc := by cases hloc
  mute hrel := by rw [hrel.1]
  setTree {_ _ t u} same hrel := ⟨by rw [hrel.1, show u = t from same], setTree t hrel.2⟩
  note n hrel := ⟨by rw [hrel.1], note n hrel.2⟩
  err bs hrel := ⟨by rw [hrel.1], err bs hrel.2⟩

namespace Lasting

theorem similar (hP : Lasting P) : Similar none fun h h' => h' = h ∧ P h where
  toSteady := .of_invariant hP.setTree hP.note hP.err
  inherit bs := by
    rintro h _ ⟨rfl, hh⟩
    exact ⟨_, _, _, rfl, rfl, rfl, hP.inherit bs hh⟩
  emit b s t start args := by
    rintro h _ streams ⟨rfl, hh⟩
    exact ⟨_, _, _, _, rfl, rfl, rfl, hP.emit b s t start args streams hh⟩

theorem of_stdout (setTree : ∀ {h : Host} (tree : FileTree), P h → P { h with tree })
    (note : ∀ {h : Host} (n : Notice), P h → P (h.note n))
    (err : ∀ {h : Host} (bs : Bytes), P h → P { h with stderr := h.stderr.push bs })
    (put : ∀ {h : Host} (stdout : Stdout), P h → P { h with stdout }) : Lasting P where
  setTree := setTree
  note := note
  err := err
  inherit _ := put _
  emit b s t start args streams hh := by
    have hact (act : Stdout → Option OsError × Stdout) :
        Keeps (fun h h' => h' = h ∧ P h) (onStdout act) := by
      rintro h _ ⟨rfl, hh⟩
      exact ⟨_, _, _, rfl, rfl, rfl, put _ hh⟩
    have hsteady : Steady none fun h h' => h' = h ∧ P h := .of_invariant setTree note err
    obtain ⟨failure, left, k, k', hk, -, -, hkept⟩ :=
      (Similar.of_stdout hsteady (fun _ => hact _) (fun _ => hact _) (hact _)).emit
        b s t start args streams ⟨rfl, hh⟩
    simp only [hk]
    exact hkept

theorem runLine (hP : Lasting P) (sh : Shell) (line : String) (h : P sh.host) :
    P (sh.runLine line).2.host := by
  obtain ⟨flow, session, k, k', hk, -, -, hkept⟩ := sh.runLine_keeps hP.similar line nofun ⟨rfl, h⟩
  rw [hk]
  exact hkept

end Lasting

end Host

end LineShell
