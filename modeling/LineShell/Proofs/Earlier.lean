import LineShell.Proofs.Logs
import LineShell.Proofs.Output

/-!
# What came earlier

What a host has shown, complained of and logged so far has no influence on what is
done next. Two shells that differ in nothing else, and in what the log file holds,
run a line alike and add the same output and the same messages.
-/

set_option autoImplicit false

namespace LineShell

/-- What came before everything that a host has taken so far: the pieces on its two
outputs, the last first, and the notices. -/
structure Earlier where
  shown : List Bytes
  said : List Bytes
  notices : List Notice

theorem Transcript.bytes_append (new old : List Bytes) :
    Transcript.bytes ⟨new ++ old⟩ = Transcript.bytes ⟨old⟩ ++ Transcript.bytes ⟨new⟩ := by
  simp [Transcript.bytes]

namespace Stdout

variable (shown : List Bytes) (s : Stdout) (bs : Bytes)

def since : Stdout := { s with taken := ⟨s.taken.pieces ++ shown⟩ }

theorem andThen_since {r r' : Option OsError × Stdout} (hr : r' = (r.1, r.2.since shown))
    {next : Stdout → Option OsError × Stdout}
    (hnext : ∀ s, next (s.since shown) = ((next s).1, (next s).2.since shown)) :
    let andThen (r : Option OsError × Stdout) : Option OsError × Stdout :=
      match r with
      | (none, s) => next s
      | failed => failed
    andThen r' = ((andThen r).1, (andThen r).2.since shown) := by
  subst hr
  rcases r with ⟨_ | e, s⟩
  · exact hnext s
  · rfl

theorem pass_since : (s.since shown).pass bs = ((s.pass bs).1, (s.pass bs).2.since shown) := by
  unfold pass
  by_cases hbs : bs.isEmpty
  · rw [if_pos hbs, if_pos hbs]
  rw [if_neg hbs, if_neg hbs]
  by_cases hfull : s.isFull = true
  · rw [if_pos hfull, if_pos (show (s.since shown).isFull = true from hfull)]
  · rw [if_neg hfull, if_neg (show ¬ (s.since shown).isFull = true from hfull)]
    rfl

theorem flush_since : (s.since shown).flush = (s.flush.1, s.flush.2.since shown) :=
  andThen_since shown (pass_since shown s s.held) fun _ => rfl

theorem hold_since : (s.since shown).hold bs = ((s.hold bs).1, (s.hold bs).2.since shown) := by
  let room (s : Stdout) : Option OsError × Stdout :=
    if s.held.length + bs.length ≤ capacity then (none, s) else s.flush
  have hroom : room (s.since shown) = ((room s).1, (room s).2.since shown) := by
    by_cases hfits : s.held.length + bs.length ≤ capacity
    · rw [show room s = _ from if_pos hfits]
      exact if_pos hfits
    · rw [show room s = _ from if_neg hfits, ← flush_since]
      exact if_neg hfits
  refine andThen_since shown hroom fun ready => ?_
  split
  · exact pass_since shown ready bs
  · rfl

theorem writeLines_since : (s.since shown).writeLines bs =
    ((s.writeLines bs).1, (s.writeLines bs).2.since shown) := by
  have hheld : (s.since shown).held = s.held := rfl
  simp only [writeLines, hheld]
  split
  · split
    · exact flush_since shown s
    · rfl
  split
  · exact pass_since shown s bs
  · exact andThen_since shown (hold_since shown s bs) (flush_since shown)

theorem write_since : (s.since shown).write bs = ((s.write bs).1, (s.write bs).2.since shown) :=
  andThen_since shown (writeLines_since shown s _) fun ready => hold_since shown ready _

end Stdout

def Stderr.since (said : List Bytes) (s : Stderr) : Stderr :=
  { s with taken := ⟨s.taken.pieces ++ said⟩ }

namespace Host

def since (e : Earlier) (h : Host) : Host :=
  { h with
    stdout := h.stdout.since e.shown
    stderr := h.stderr.since e.said
    journal.notices := e.notices ++ h.journal.notices }

def earlier (h : Host) : Earlier :=
  ⟨h.stdout.taken.pieces, h.stderr.taken.pieces, h.journal.notices⟩

def afresh (h : Host) : Host :=
  { h with stdout.taken := .empty, stderr.taken := .empty, journal.notices := [] }

theorem since_earlier (h : Host) : h.afresh.since h.earlier = h := by
  simp [since, afresh, earlier, Stdout.since, Stderr.since, Transcript.empty]

theorem note_since (e : Earlier) (h : Host) (n : Notice) :
    (h.since e).note n = (h.note n).since e := by
  obtain ⟨tree, file, -, hnote⟩ := h.note_eq n
  have hplain := hnote h.stdout h.stderr h.journal.notices
  have hsince := hnote (h.since e).stdout (h.since e).stderr (h.since e).journal.notices
  rw [show h.note n = _ from hplain, show (h.since e).note n = _ from hsince]
  simp [since]

theorem SameBut.afresh {log : Option Location} {h k : Host} (h' : SameBut log h k) :
    SameBut log h.afresh k.afresh where
  tree := h'.tree
  start := h'.start
  path := h'.path
  stdout := by rw [Host.afresh, Host.afresh, h'.stdout]
  stderr := by rw [Host.afresh, Host.afresh, h'.stderr]
  clock := h'.clock
  threshold := h'.threshold
  file := h'.file

/-- Two hosts that have put out the same since, with one thing earlier on this side and
another on that. If a log file is given, it is theirs. -/
def Apart (log : Option Location) (e e' : Earlier) (h h' : Host) : Prop :=
  ∃ g g' : Host, g.SameBut log g' ∧ (∀ loc ∈ log, loc ∈ g.logPlace?) ∧ h = g.since e ∧
    h' = g'.since e'

section Apart

variable (log : Option Location) (e e' : Earlier)

theorem apart_steady : Steady log (Apart log e e') where
  tree := by
    rintro _ _ ⟨g, g', hsame, -, rfl, rfl⟩
    exact hsame.tree
  start := by
    rintro _ _ ⟨g, g', hsame, -, rfl, rfl⟩
    exact hsame.start
  path := by
    rintro _ _ ⟨g, g', hsame, -, rfl, rfl⟩
    exact hsame.path
  place := by
    rintro _ _ ⟨g, g', hsame, -, rfl, rfl⟩
    exact hsame.logPlace
  owned := by
    rintro _ _ ⟨g, g', -, howned, rfl, rfl⟩
    exact howned
  mute := by
    rintro _ _ ⟨g, g', hsame, -, rfl, rfl⟩
    show g'.stderr.isFull = g.stderr.isFull
    rw [hsame.stderr]
  setTree := by
    rintro _ _ t u htree ⟨g, g', hsame, howned, rfl, rfl⟩
    exact ⟨{ g with tree := t }, { g' with tree := u }, { hsame with tree := htree }, howned,
      rfl, rfl⟩
  note := by
    rintro _ _ n ⟨g, g', hsame, howned, rfl, rfl⟩
    refine ⟨g.note n, g'.note n, hsame.note n, ?_, note_since e g n, note_since e' g' n⟩
    rwa [logPlace?_note]
  err := by
    rintro _ _ bs ⟨g, g', hsame, howned, rfl, rfl⟩
    exact ⟨{ g with stderr := g.stderr.push bs }, { g' with stderr := g'.stderr.push bs },
      { hsame with stderr := congrArg (·.push bs) hsame.stderr }, howned, rfl, rfl⟩

theorem apart_keeps (act : Stdout → Option OsError × Stdout)
    (hact : ∀ shown s, act (s.since shown) = ((act s).1, (act s).2.since shown)) :
    Keeps (Apart log e e') (onStdout act) := by
  rintro _ _ ⟨g, g', hsame, howned, rfl, rfl⟩
  refine ⟨(act g.stdout).1, _, _, ?_, ?_, { g with stdout := (act g.stdout).2 },
    { g' with stdout := (act g.stdout).2 }, { hsame with stdout := rfl }, howned, rfl, rfl⟩
  · simp only [onStdout, since, hact]
  · simp only [onStdout, since, hact, hsame.stdout]

/-- Nothing that a command does depends on what came earlier. -/
theorem apart_similar : Similar log (Apart log e e') :=
  .of_stdout (apart_steady log e e')
    (fun bs => apart_keeps log e e' (·.pass bs) fun shown s => Stdout.pass_since shown s bs)
    (fun bs => apart_keeps log e e' (·.write bs) fun shown s => Stdout.write_since shown s bs)
    (apart_keeps log e e' Stdout.flush Stdout.flush_since)

end Apart

end Host

namespace Shell

def shown (sh : Shell) : Bytes := sh.host.stdout.taken.bytes

/-- Two shells that differ in nothing but what they have shown and logged. If a log file
is given, it is theirs. -/
structure Alike (log : Option Location) (sh sh' : Shell) : Prop where
  prompt : sh'.prompt = sh.prompt
  executables : sh'.executables = sh.executables
  session : sh'.session = sh.session
  stderr : sh'.host.stderr = sh.host.stderr
  host : sh.host.afresh.SameBut log sh'.host.afresh
  owned : ∀ loc ∈ log, loc ∈ sh.host.logPlace?

namespace Alike

variable {log : Option Location} {sh sh' : Shell}

theorem refl (howned : ∀ loc ∈ log, loc ∈ sh.host.logPlace?) : sh.Alike log sh :=
  ⟨rfl, rfl, rfl, rfl, .refl _ _, howned⟩

theorem tree (h : sh.Alike log sh') : sh.host.tree.SameBut log sh'.host.tree := h.host.tree

end Alike

end Shell

end LineShell
