import Mathlib.Data.List.Induction
import LineShell.Proofs.Sparing

/-!
# Parsing a line again

Parsing makes files and adds to the log. Neither changes what a line is parsed to,
so it makes no difference when the log is written, and a line that is parsed once
more gives the same and makes nothing.
-/

set_option autoImplicit false

namespace LineShell
open Redirect (resolveIn)

/-! ## What parsing logs -/

def Host.logText (clock : String) (threshold : Level) (ns : List Notice) : Bytes :=
  (ns.filter (threshold.admits ·.level)).flatMap fun n => Utf8.ofString (logLine clock n)

theorem Host.logText_append (clock : String) (threshold : Level) (ns ms : List Notice) :
    logText clock threshold (ns ++ ms) =
      logText clock threshold ns ++ logText clock threshold ms := by
  rw [logText, List.filter_append, List.flatMap_append]
  rfl

theorem Redirect.resolveIn_level (start : Location) (base : Path) (k : Kind) (word : String)
    (t : FileTree) : ∀ n ∈ (resolveIn start base k word t).notices, n.level = .debug := by
  unfold resolveIn
  split
  · exact List.forall_mem_nil _
  dsimp only
  split
  · exact List.forall_mem_nil _
  cases k.mode with
  | append => exact List.forall_mem_nil _
  | truncate =>
    dsimp only
    split
    · exact List.forall_mem_singleton.mpr rfl
    · exact List.forall_mem_nil _
    · exact List.forall_mem_nil _

namespace Resolved

variable (start : Location) (base : Path) (r : Resolved FileTree)

theorem step_notices (w : Word) :
    ∃ more, (step (resolveIn start base) r w).notices = r.notices ++ more ∧
      ∀ n ∈ more, Level.warn.detail ≤ n.level.detail := by
  have hnothing : ∃ more, r.notices = r.notices ++ more ∧
      ∀ n ∈ more, Level.warn.detail ≤ n.level.detail :=
    ⟨[], (List.append_nil _).symm, List.forall_mem_nil _⟩
  cases w with
  | arg text => exact hnothing
  | redirect operator kind target =>
    by_cases ht : target = ""
    · subst ht
      rw [step_missing]
      exact hnothing
    have hmade : ∀ n ∈ (resolveIn start base kind target r.state).notices,
        Level.warn.detail ≤ n.level.detail := by
      intro n hn
      rw [Redirect.resolveIn_level start base kind target r.state n hn]
      decide
    cases hresult : (resolveIn start base kind target r.state).result with
    | ok found =>
      rw [step_ok ht hresult]
      exact ⟨_, rfl, hmade⟩
    | error e =>
      rw [step_error ht hresult, List.append_assoc]
      refine ⟨_, rfl, List.forall_mem_append.mpr ⟨hmade, ?_⟩⟩
      exact List.forall_mem_singleton.mpr (Nat.le_refl _)

theorem run_notices (words : List Word) :
    ∃ more, (words.foldl (step (resolveIn start base)) r).notices = r.notices ++ more ∧
      ∀ n ∈ more, Level.warn.detail ≤ n.level.detail := by
  induction words generalizing r with
  | nil => exact ⟨[], (List.append_nil _).symm, List.forall_mem_nil _⟩
  | cons w words ih =>
    obtain ⟨first, hfirst, hlevels⟩ := step_notices start base r w
    obtain ⟨more, hmore, hothers⟩ := ih (step (resolveIn start base) r w)
    refine ⟨first ++ more, ?_, List.forall_mem_append.mpr ⟨hlevels, hothers⟩⟩
    rw [List.foldl_cons, hmore, hfirst, List.append_assoc]

end Resolved

namespace Host

section Logging

variable {h : Host} {place : Location} {threshold : Level} {logged : Bytes} {mode : Nat}

theorem Logs.noteAll (hl : h.Logs place threshold logged mode) (ns : List Notice) :
    (h.noteAll ns).Logs place threshold (logged ++ logText h.journal.clock threshold ns) mode := by
  induction ns generalizing h logged with
  | nil =>
    rw [show logText h.journal.clock threshold [] = [] from rfl, List.append_nil]
    exact hl
  | cons n ns ih =>
    have hrest := ih (hl.note n)
    rw [note_clock, List.append_assoc] at hrest
    have htext : logText h.journal.clock threshold (n :: ns) =
        (if threshold.admits n.level then Utf8.ofString (logLine h.journal.clock n) else []) ++
          logText h.journal.clock threshold ns := by
      unfold logText
      by_cases hlevel : threshold.admits n.level = true
      · simp [hlevel]
      · simp [hlevel]
    rwa [htext]

theorem Logs.parse (hl : h.Logs place threshold logged mode) (base : Path) (line : String) :
    (h.parse base line).2.Logs place threshold
      (logged ++ logText h.journal.clock threshold (h.parse base line).1.notices) mode := by
  have hgrown := Resolved.run_extends h.start base (Resolved.start h.tree) (splitWords line)
  have hresolved :
      Logs { h with tree := (h.parse base line).1.state } place threshold logged mode :=
    ⟨hl.file, hl.held.kept hgrown⟩
  exact hresolved.noteAll _

end Logging

variable (h : Host) (base : Path)

theorem parseWords_notices (words : List Word) :
    ∀ n ∈ (h.parseWords base words).1.notices, Level.warn.detail ≤ n.level.detail := by
  obtain ⟨more, hmore, hlevels⟩ :=
    Resolved.run_notices h.start base (Resolved.start h.tree) words
  have hnotices : (h.parseWords base words).1.notices = more := hmore
  rwa [hnotices]

theorem parseWords_sameBut (words : List Word) :
    SameBut (h.recording .warn) { h with tree := (h.parseWords base words).1.state }
      (h.parseWords base words).2 :=
  noteAll_sameBut fun n hn => recording_eq rfl (h.parseWords_notices base words n hn)

end Host

/-! ## When it is logged -/

namespace FileTree

variable {t u : FileTree}

theorem SameBut.agrees (h : SameBut (some []) t u) (loc : Location) :
    u.node? loc = t.node? loc := by
  rcases h loc with hsame | ⟨rfl, -⟩
  · exact hsame
  · rfl

theorem put_comm {a b : Location} (hab : a ≠ b) (m n : Node) :
    SameBut (some []) ((t.put a m).put b n) ((t.put b n).put a m) := by
  intro loc
  by_cases hroot : loc = []
  · rw [hroot]
    exact .inl rfl
  by_cases ha : loc = a
  · subst ha
    rw [node?_put_self hroot, node?_put_ne hab, node?_put_self hroot]
    exact .inl rfl
  · rw [node?_put_ne ha]
    by_cases hb : loc = b
    · subst hb
      rw [node?_put_self hroot, node?_put_self hroot]
      exact .inl rfl
    · rw [node?_put_ne hb, node?_put_ne hb, node?_put_ne ha]
      exact .inl rfl

theorem write_put {k : Handle} {spot : Location} (hspot : k.loc ≠ spot) (node : Node) (bs : Bytes) :
    (∃ e, t.write k bs = .error e ∧ (t.put spot node).write k bs = .error e) ∨
      ∃ u v next, t.write k bs = .ok (u, next) ∧ (t.put spot node).write k bs = .ok (v, next) ∧
        SameBut (some []) (u.put spot node) v := by
  unfold write
  dsimp only
  rw [node?_put_ne hspot]
  split
  · exact .inr ⟨_, _, _, rfl, rfl, .refl _ _⟩
  split
  · exact .inr ⟨_, _, _, rfl, rfl, put_comm hspot _ _⟩
  · exact .inr ⟨_, _, _, rfl, rfl, put_comm hspot _ _⟩
  · exact .inl ⟨_, rfl, rfl⟩
  · exact .inr ⟨_, _, _, rfl, rfl, .refl _ _⟩

end FileTree

namespace Host

variable (h : Host)

theorem note_put (n : Notice) {spot : Location} (hspot : spot ∉ h.logPlace?) (node : Node) :
    SameBut (some []) { h.note n with tree := (h.note n).tree.put spot node }
      ({ h with tree := h.tree.put spot node }.note n) := by
  unfold note
  dsimp only
  rcases hfile : h.journal.file with _ | ⟨handle, threshold⟩
  · exact .refl _ _
  dsimp only
  split
  · have hne : handle.loc ≠ spot := by
      rintro rfl
      rw [logPlace?, hfile] at hspot
      exact hspot rfl
    obtain ⟨e, hwrite, hwrite'⟩ | ⟨u, v, next, hwrite, hwrite', hsame⟩ :=
      h.tree.write_put hne node (Utf8.ofString (logLine h.journal.clock n))
    · rw [hwrite, hwrite']
      exact .refl _ _
    · rw [hwrite, hwrite']
      exact ⟨hsame, rfl, rfl, rfl, rfl, rfl, rfl, .inl rfl⟩
  · exact .refl _ _

theorem noteAll_put (ns : List Notice) {spot : Location} (hspot : spot ∉ h.logPlace?)
    (node : Node) :
    SameBut (some []) { h.noteAll ns with tree := (h.noteAll ns).tree.put spot node }
      ({ h with tree := h.tree.put spot node }.noteAll ns) := by
  induction ns generalizing h with
  | nil => exact .refl _ _
  | cons n ns ih =>
    have hrest := ih (h.note n) (h.logPlace?_note n ▸ hspot)
    exact hrest.trans ((h.note_put n hspot node).noteAll ns)

/-- One more word, with what it has to tell logged before the next. -/
def parseNext (base : Path) (p : Resolved FileTree × Host) (w : Word) :
    Resolved FileTree × Host :=
  let next := Resolved.step (resolveIn p.2.start base) { p.1 with state := p.2.tree } w
  (next, { p.2 with tree := next.state }.noteAll (next.notices.drop p.1.notices.length))

def parseInTurn (base : Path) (words : List Word) : Resolved FileTree × Host :=
  words.foldl (parseNext base) (.start h.tree, h)

structure InStep (once each : Resolved FileTree × Host) : Prop where
  texts : each.1.texts = once.1.texts
  redirects : each.1.redirects = once.1.redirects
  errors : each.1.errors = once.1.errors
  notices : each.1.notices = once.1.notices
  host : SameBut (some []) once.2 each.2
  listed : each.2.journal.notices = once.2.journal.notices

theorem place_of_records {h : Host} {level : Level} (hrecords : h.records level = true) :
    h.logPlace? = some (h.logPlace?.getD []) := by
  unfold records threshold? at hrecords
  unfold logPlace?
  rcases hfile : h.journal.file with _ | file
  · rw [hfile] at hrecords
    cases hrecords
  · rfl

variable (base : Path)

theorem parseWords_concat (words : List Word) (w : Word) {more : List Notice}
    (hmore : (Resolved.step (resolveIn h.start base) (h.parseWords base words).1 w).notices =
      (h.parseWords base words).1.notices ++ more) :
    let next := Resolved.step (resolveIn h.start base) (h.parseWords base words).1 w
    h.parseWords base (words ++ [w]) = (next,
      ({ h with tree := next.state }.noteAll (h.parseWords base words).1.notices).noteAll more) := by
  intro next
  rw [← noteAll_append, ← hmore, parseWords, Resolved.ofWords, List.foldl_append]
  rfl

/-- It makes no difference when the log is written, if its file is there. -/
theorem parseWords_inTurn (hlog : ∀ place ∈ h.logPlace?, ∃ node, h.tree.node? place = some node)
    (words : List Word) : InStep (h.parseWords base words) (h.parseInTurn base words) := by
  induction words using List.reverseRecOn with
  | nil => exact ⟨rfl, rfl, rfl, rfl, .refl _ _, rfl⟩
  | append_singleton before w ih =>
    let r := (h.parseWords base before).1
    let p := h.parseInTurn base before
    let r' : Resolved FileTree := { p.1 with state := p.2.tree }
    let next := Resolved.step (resolveIn h.start base) r w
    let next' := Resolved.step (resolveIn h.start base) r' w
    obtain ⟨texts, redirects, errors, notices, host, listed⟩ := ih
    -- the log file is all that the lines written so far have changed
    have honce : SameBut (some (h.logPlace?.getD [])) { h with tree := r.state }
        (h.parseWords base before).2 :=
      noteAll_sameBut fun n _ hrecords => place_of_records hrecords
    have hr : r.SameBut (some (h.logPlace?.getD [])) r' :=
      ⟨texts, redirects, errors, notices,
        honce.tree.trans fun loc => .inl (host.tree.agrees loc)⟩
    have hnext : next.SameBut _ next' := hr.step h.start base w
    obtain ⟨more, hmore, -⟩ := Resolved.step_notices h.start base r w
    have hturn : h.parseInTurn base (before ++ [w]) =
        (next', { p.2 with tree := next'.state }.noteAll more) := by
      have hstart : p.2.start = h.start := host.start.trans honce.start
      have hdrop : next'.notices.drop p.1.notices.length = more := by
        rw [hnext.notices, hmore, ← notices]
        exact List.drop_left
      rw [parseInTurn, List.foldl_append]
      show parseNext base p w = _
      unfold parseNext
      rw [hstart]
      exact Prod.ext rfl (congrArg (noteAll _) hdrop)
    rw [h.parseWords_concat base before w hmore, hturn]
    refine ⟨hnext.texts, hnext.redirects, hnext.errors, hnext.notices, ?_, ?_⟩
    · refine SameBut.noteAll ?_ more
      rcases hr.step_makes h.start base w with ⟨hsame, hsame'⟩ | ⟨spot, hvacant, hput, hput'⟩
      · dsimp only [next']
        rw [hsame, hsame']
        exact host
      · have hspot : spot ∉ h.logPlace? := by
          intro hmem
          obtain ⟨node, hnode⟩ := hlog spot hmem
          have hgrown := Resolved.run_extends h.start base (Resolved.start h.tree) before
          cases hvacant.symm.trans (hgrown.kept spot node hnode)
        dsimp only [next']
        rw [hput, hput']
        have hearly := noteAll_put { h with tree := r.state } r.notices hspot
          (.file [] FileTree.newFileMode)
        exact hearly.symm.trans { host with tree := host.tree.put spot _ }
    · rw [notices_noteAll, notices_noteAll, notices_noteAll, listed]
      exact congrArg (· ++ more) (notices_noteAll _ _)

theorem parseWords_idle {before : List Word} {w : Word}
    (hidle : (h.parseWords base (before ++ [w])).1.state = (h.parseWords base before).1.state) :
    (h.parseWords base before).2.tree.SameBut (h.recording .warn)
      (h.parseWords base (before ++ [w])).2.tree := by
  have hbefore := (h.parseWords_sameBut base before).tree
  have hafter := (h.parseWords_sameBut base (before ++ [w])).tree
  rw [hidle] at hafter
  exact hbefore.symm.trans hafter

/-- Parsing a line keeps everything in the tree, and adds empty files, each of which a
truncating redirect of the line names. A redirect that appends or that is dropped adds
nothing. Parsing the line once more gives the same command, errors of the same kinds and
messages, and makes nothing. The log gains what there is to tell, and nothing else of
it changes. -/
theorem parse_again (line : String) (hbase : h.tree.Anchored h.start base) :
    let log := h.recording .warn
    let parsed := h.parse base line
    let again := parsed.2.parse base line
    (∀ loc node, h.tree.node? loc = some node → ∃ now, parsed.2.tree.node? loc = some now ∧
      (now = node ∨ loc ∈ log ∧ node.Kin now)) ∧
    (∀ loc node, h.tree.node? loc = none → parsed.2.tree.node? loc = some node →
      (node = .file [] FileTree.newFileMode ∨
        loc ∈ log ∧ (Node.file [] FileTree.newFileMode).Kin node) ∧
      ∃ before operator kind target after,
        splitWords line = before ++ .redirect operator kind target :: after ∧
        kind.mode = .truncate ∧
        parsed.2.tree.look h.start (base.join target) = .ok (loc, node)) ∧
    (∀ before operator kind target after,
      splitWords line = before ++ .redirect operator kind target :: after →
      let earlier := h.parseWords base before
      let later := h.parseWords base (before ++ [.redirect operator kind target])
      kind.mode = .append ∨ later.1.errors ≠ earlier.1.errors →
        earlier.2.tree.SameBut log later.2.tree) ∧
    again.1.command? = parsed.1.command? ∧
    List.Forall₂ Redirect.Error.Alike parsed.1.errors again.1.errors ∧
    again.1.errors.map (·.message) = parsed.1.errors.map (·.message) ∧
    parsed.2.tree.SameBut log again.2.tree ∧
    ∀ place threshold logged mode, h.Logs place threshold logged mode →
      parsed.2.Logs place threshold
        (logged ++ logText h.journal.clock threshold parsed.1.notices) mode ∧
      again.2.Logs place threshold (logged ++ logText h.journal.clock threshold
        (parsed.1.notices ++ again.1.notices)) mode := by
  intro log parsed again
  obtain ⟨hkept, hadded, hidle, hcommand, herrors, hmessages, hstate⟩ :=
    Resolved.ofLine_resolveIn h.start base h.tree line hbase
  have hlogged : ({ h with tree := parsed.1.state } : Host).SameBut log parsed.2 :=
    h.parseWords_sameBut base (splitWords line)
  have hstart : parsed.2.start = h.start := hlogged.start
  -- the second parse is the one without a log in between, seen from another content of the log
  have hsame :
      (Resolved.ofLine (resolveIn h.start base) parsed.1.state line).SameBut log again.1 := by
    have hagain := Resolved.ofLine_sameBut hlogged.tree h.start base line
    rwa [← hstart] at hagain ⊢
  have hrecording : parsed.2.recording .warn = log := hlogged.recording .warn
  have hlast : again.1.state.SameBut log again.2.tree := by
    have hnoted := (parsed.2.parseWords_sameBut base (splitWords line)).tree
    rwa [hrecording] at hnoted
  refine ⟨fun loc node hnode => hlogged.tree.used (hkept loc node hnode), ?_, ?_, ?_, ?_, ?_, ?_, ?_⟩
  · intro loc node hnone hsome
    obtain ⟨made, hmade, hkin⟩ := hlogged.tree.symm.used hsome
    obtain ⟨rfl, before, operator, kind, target, after, hwords, hmode, hlook⟩ :=
      hadded loc made hnone hmade
    refine ⟨hkin.imp Eq.symm (And.imp_right Node.Kin.symm), before, operator, kind, target, after,
      hwords, hmode, hlogged.tree.look_node hlook hsome⟩
  · intro before operator kind target after hwords earlier later hkind
    exact h.parseWords_idle base (hidle before operator kind target after hwords hkind)
  · rw [hsame.command?]
    exact hcommand
  · rw [hsame.errors]
    exact herrors
  · rw [hsame.errors]
    exact hmessages
  · have hmiddle : parsed.1.state.SameBut log again.1.state := hstate ▸ hsame.state
    exact hlogged.tree.symm.trans (hmiddle.trans hlast)
  · intro place threshold logged mode hl
    have hfirst := hl.parse base line
    have hsecond := hfirst.parse base line
    refine ⟨hfirst, ?_⟩
    rw [show (h.parse base line).2.journal.clock = h.journal.clock from hlogged.clock,
      List.append_assoc, ← logText_append] at hsecond
    exact hsecond

theorem parse_again_created :
    let h := (Shell.logging .debug).host
    let parsed := h.parse ⟨"/"⟩ "ls > f"
    let again := parsed.2.parse ⟨"/"⟩ "ls > f"
    h.tree.Anchored h.start ⟨"/"⟩ ∧ h.Logs ["log"] .debug [] 0o644 ∧
      parsed.2.tree.node? ["f"] = some (.file [] FileTree.newFileMode) ∧
      again.2.tree.node? ["f"] = some (.file [] FileTree.newFileMode) ∧
      again.2.Logs ["log"] .debug
        (logText "00:00:00" .debug (parsed.1.notices ++ again.1.notices)) 0o644 := by
  intro h parsed again
  have hbase : h.tree.Anchored h.start ⟨"/"⟩ := .inl (by decide)
  have hlogs : h.Logs ["log"] .debug [] 0o644 :=
    ⟨⟨⟨["log"], 0, true⟩, rfl, rfl, rfl⟩, .file (by decide +kernel)⟩
  have hrecording : h.recording .warn = some ["log"] := rfl
  have hwords : splitWords "ls > f" = [.arg "ls", .redirect ">" .stdoutWrite "f"] := by
    decide +kernel
  have hname : FileName "f" := by decide +kernel
  obtain ⟨-, -, -, -, -, -, hsame, hgained⟩ := h.parse_again ⟨"/"⟩ "ls > f" hbase
  rw [hrecording] at hsame
  have hmade : parsed.2.tree.node? ["f"] = some (.file [] FileTree.newFileMode) := by
    obtain ⟨made, notices, hanswer, hheld, -⟩ :=
      Redirect.resolveIn_child (h.tree.look_root h.start) hname (by decide +kernel)
        (.free (by decide +kernel)) .stdoutWrite
    have hstate : parsed.1.state = made := by
      simp [parsed, parse, parseWords, Resolved.ofWords, hwords, Resolved.step, Resolved.start,
        hanswer]
    have hlogged := (h.parseWords_sameBut ⟨"/"⟩ (splitWords "ls > f")).tree ["f"]
    rcases hlogged with hnode | ⟨hlog, -⟩
    · rw [show parsed.2.tree.node? ["f"] = _ from hnode]
      show parsed.1.state.node? ["f"] = _
      rw [hstate]
      exact hheld.node (by decide)
    · exact absurd hlog (by decide)
  refine ⟨hbase, hlogs, hmade, ?_, ?_⟩
  · rcases hsame ["f"] with hnode | ⟨hlog, -⟩
    · exact hnode.trans hmade
    · exact absurd hlog (by decide)
  · exact (hgained _ _ _ _ hlogs).2

/-- A warning changes what the log file holds. -/
theorem parse_logged :
    let h := (Shell.logging .warn).host
    h.tree.Anchored h.start ⟨"/"⟩ ∧ h.tree.node? ["log"] = some (.file [] 0o644) ∧
      (h.parse ⟨"/"⟩ "> n/f").2.tree.node? ["log"] ≠ h.tree.node? ["log"] := by
  intro h
  refine ⟨.inl (by decide), by decide +kernel, ?_⟩
  have hwords : splitWords "> n/f" = [.redirect ">" .stdoutWrite "n/f"] := by decide +kernel
  have hread : Resolved.ofWords (resolveIn h.start ⟨"/"⟩) h.tree (splitWords "> n/f") = _ :=
    Resolved.ofLine_redirect hwords (by decide) (congrArg (·.result)
      (Redirect.resolveIn_lacksParent .stdoutWrite (by decide) (Shell.lacksParent_unused rfl)))
  rw [parse, parseWords, hread]
  decide +kernel

end Host

end LineShell
