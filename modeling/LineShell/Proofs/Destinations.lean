import LineShell.Proofs.Echoing
import LineShell.Proofs.Opening
import LineShell.Proofs.Requests

/-!
# Destinations

What a builtin puts out on a channel goes to the target that was last found for
appending, or else to the one last found for overwriting, or else to the shell's own
output. Every other node that was there stays as it was, but for the event log, and
what the redirects of the line made besides is empty.
-/

set_option autoImplicit false

namespace LineShell

namespace FileTree

section Truncating

variable {t : FileTree} {start : Location} {p : Path}

/-- Something has this path, if only a link that leads nowhere. -/
def Names (t : FileTree) (start : Location) (p : Path) : Prop :=
  ∃ loc node, t.follow start .makeNewFile p = .ok (.found loc node)

theorem create_there (h : t.create start p = .error .alreadyExists) : t.Names start p := by
  unfold create at h
  split at h
  · cases h
  · rename_i loc node hfollow
    exact ⟨loc, node, hfollow⟩
  · rename_i e hfollow
    cases h
    exact absurd hfollow (follow_ne_alreadyExists t start .makeNewFile p)

end Truncating

end FileTree

namespace Redirect
open FileTree (newFileMode)

/-- The target of a channel, given what became of the redirects. -/
def Aims (verdicts : List Verdict) (channel : Channel) (found : Target) : Prop :=
  Prevails verdicts channel.appendKind found ∨
    (∀ other, ¬ Prevails verdicts channel.appendKind other) ∧
      Prevails verdicts channel.writeKind found

theorem resolveIn_truncates {start : Location} {base : Path} {k : Kind} {word : String}
    {t : FileTree} {found : Target} (hk : k.mode = .truncate)
    (h : (resolveIn start base k word t).result = .ok found) :
    t.Names start found.path ∧ (resolveIn start base k word t).state = t ∨
      t.create start found.path = .ok (resolveIn start base k word t).state := by
  revert h
  unfold resolveIn
  by_cases hword : word = ""
  · rw [if_pos hword]
    exact nofun
  rw [if_neg hword]
  dsimp only
  split
  · exact nofun
  rw [hk]
  dsimp only
  split
  · rename_i made hmade
    rintro ⟨⟩
    exact .inr hmade
  · rename_i hthere
    rintro ⟨⟩
    exact .inl ⟨FileTree.create_there hthere, rfl⟩
  · exact nofun

end Redirect

namespace Resolved
open Redirect (resolveIn Verdict Prevails Aims)
open FileTree (newFileMode)

theorem effective_eq_some_iff (resolve : Redirect.Resolver FileTree) (t : FileTree)
    (words : List Word) {channel : Channel} {found : Redirect.Target} :
    (ofWords resolve t words).redirects.effective channel.writeKind channel.appendKind =
        some found ↔
      Aims (verdicts resolve t words) channel found := by
  rw [Redirect.Table.effective, Option.or_eq_some_iff, Option.eq_none_iff_forall_ne_some, Aims]
  simp only [ne_eq, redirects_eq_some_iff]

section Verdicts

variable {start : Location} {base : Path} {k : Redirect.Kind} {found : Redirect.Target}

theorem mem_verdicts_single {resolve : Redirect.Resolver FileTree} {r : Resolved FileTree}
    {w : Word} (h : (k, .ok found) ∈ verdicts resolve r.state [w]) :
    ∃ word, (resolve k word r.state).result = .ok found ∧
      (step resolve r w).state = (resolve k word r.state).state := by
  cases w with
  | arg text => cases h
  | redirect operator kind target =>
    by_cases ht : target = ""
    · simp [verdicts, ht] at h
    · simp only [verdicts, if_neg ht, List.mem_singleton, Prod.mk.injEq] at h
      obtain ⟨rfl, hresult⟩ := h
      exact ⟨target, hresult.symm, step_state ht⟩

theorem step_truncates {r : Resolved FileTree} {w : Word}
    (hmem : (k, .ok found) ∈ verdicts (resolveIn start base) r.state [w])
    (hk : k.mode = .truncate)
    (hnew : ∀ loc node, r.state.follow start .makeNewFile found.path = .ok (.found loc node) →
      node = .file [] newFileMode) :
    ∃ place, r.state.follow start .makeNewFile found.path = .ok place ∧
      (step (resolveIn start base) r w).state.node? place.loc = some (.file [] newFileMode) := by
  obtain ⟨word, hresult, hstate⟩ := mem_verdicts_single hmem
  rw [hstate]
  rcases Redirect.resolveIn_truncates hk hresult with ⟨⟨loc, node, hfollow⟩, hsame⟩ | hmade
  · refine ⟨.found loc node, hfollow, ?_⟩
    rw [hsame, ← hnew loc node hfollow]
    exact FileTree.follow_found hfollow
  · obtain ⟨spot, hfollow, hnone, hput⟩ := FileTree.create_eq_ok hmade
    refine ⟨.vacant spot, hfollow, ?_⟩
    rw [hput]
    exact (FileTree.Holds.free hnone).put_node [] newFileMode

/-- A truncating redirect whose path named nothing has made an empty file, or one was made
before it. The path leads there as long as the ways last. -/
theorem verdicts_made {words : List Word} {r : Resolved FileTree}
    (hmem : (k, .ok found) ∈ verdicts (resolveIn start base) r.state words)
    (hk : k.mode = .truncate)
    (hnew : ∀ loc node, r.state.follow start .makeNewFile found.path = .ok (.found loc node) →
      node = .file [] newFileMode) :
    let made := (words.foldl (step (resolveIn start base)) r).state
    ∃ loc, made.node? loc = some (.file [] newFileMode) ∧
      ∀ u node, made.Paves u → u.node? loc = some node → node.IsLeaf →
        u.look start found.path = .ok (loc, node) := by
  induction words generalizing r with
  | nil => cases hmem
  | cons w words ih =>
    rw [verdicts_cons] at hmem
    rcases List.mem_append.mp hmem with hfirst | hlater
    · obtain ⟨place, hfollow, hfile⟩ := step_truncates hfirst hk hnew
      have hrest := run_extends start base (step (resolveIn start base) r w) words
      have hgrown := (step_extends start base r w).trans hrest
      refine ⟨place.loc, hrest.kept _ _ hfile, fun u node hpaves hnode hleaf => ?_⟩
      have hway := (FileTree.Serves.of_extends hgrown).paves.trans hpaves
      exact FileTree.follow_look hway rfl hfollow hnode (.inl hleaf)
    · refine ih hlater fun loc node hfound => ?_
      rcases FileTree.follow_shrunk (step_extends start base r w) hfound with hbefore | hfile
      · exact hnew loc node hbefore
      · exact hfile

end Verdicts

end Resolved

/-! ## Running the line -/

theorem FileTree.Holds.grown {t u : FileTree} {loc : Location} {content : Option Bytes} {mode : Nat}
    (h : t.Holds loc content mode) (hx : t.Extends u) :
    ∃ now, u.Holds loc now mode ∧ now.getD [] = content.getD [] := by
  cases h with
  | free hn =>
    cases hu : u.node? loc with
    | none => exact ⟨none, .free hu, rfl⟩
    | some node =>
      rw [hx.added loc node hn hu] at hu
      exact ⟨some [], .file hu, rfl⟩
  | file hn => exact ⟨_, .kept (.file hn) hx, rfl⟩
  | program hn => exact ⟨_, .kept (.program hn) hx, rfl⟩

namespace Shell

variable {sh : Shell} {line : String} {c : Command} {j : Job} {b : Builtin}

structure Begins (sh : Shell) (line : String) (j : Job) : Prop where
  logPlace : j.host.logPlace? = sh.host.logPlace?
  stderr : j.host.stderr.bytes =
    sh.host.stderr.bytes ++ Host.messages (sh.reading line).errors
  tree : FileTree.Touches (fun loc => j.At loc ∨ loc ∈ sh.host.logPlace?) (sh.reading line).state
    j.host.tree
  file : ∀ loc content mode, j.At loc → loc ∉ sh.host.logPlace? →
    sh.host.tree.Holds loc content mode →
    j.host.tree.Holds loc (some (j.base loc (content.getD []))) mode
  logged : ∀ place threshold logged mode, sh.host.Logs place threshold logged mode →
    ∃ parsed, j.host.Logs place threshold (j.base place (logged ++ parsed)) mode
  offset : ∀ channel handle, j.handle channel = some handle → handle.offset = 0
  targets : ∀ (spots : Location → Prop) v, FileTree.Touches spots j.host.tree v → ∀ channel,
    let target? := (sh.reading line).redirects.effective channel.writeKind channel.appendKind
    (target? = none → j.handle channel = none) ∧
      ∀ target, target? = some target → ∃ handle, j.handle channel = some handle ∧
        handle.IsFor v sh.host.start target

theorem reported_noted (sh : Shell) (line : String) (n : Notice) :
    ({ sh.host with tree := (sh.reading line).state } : Host).Noted
      ((sh.reported (sh.reading line)).note n) :=
  ((Host.noteAll_noted _ _).trans (Host.complainAll_noted _ _)).trans
    (Host.note_noted _ n)

theorem job?_begins (h : sh.job? line = some (c, j)) : sh.Begins line j := by
  obtain ⟨hcommand, hjob⟩ := job?_eq_some h
  have hopened := c.job?_opened hjob
  have hnoted := sh.reported_noted line ⟨.debug, c.summary⟩
  have hredirects : c.redirects = (sh.reading line).redirects :=
    (Resolved.command?_eq_some_iff.mp hcommand).2
  constructor
  · rw [hopened.host]
    exact hnoted.logPlace
  · rw [hopened.host]
    show (Host.note _ _).stderr.bytes = _
    rw [Host.stderr_note, reported_stderr]
  · exact (hnoted.tree.mono fun _ => .inr).trans (hopened.tree.mono fun _ => .inl)
  · intro loc content mode hat hunlogged hheld
    obtain ⟨now, hnow, hsame⟩ := hheld.grown (sh.reading_extends line)
    have hopen := hopened.holds loc now mode hat (hnow.congr (hnoted.tree.kept hunlogged))
    rwa [hsame] at hopen
  · intro place threshold logged mode hl
    obtain ⟨more, hmore⟩ := hnoted.logs place threshold logged mode
      ⟨hl.file, hl.held.kept (sh.reading_extends line)⟩
    exact ⟨more, hopened.logs hmore⟩
  · exact hopened.offset
  · intro spots v hv channel
    have htargets := hopened.targets spots v hv channel
    rwa [hredirects, hnoted.start] at htargets

/-- How the pieces of a builtin come out, as the shell is before its line. -/
structure Puts (sh : Shell) (errors : List Redirect.Error) (j : Job)
    (told rest : List (Channel × String)) (left : Host) : Prop where
  refused : ∀ piece ∈ rest.head?, j.Refuses piece.1
  file : ∀ loc content mode, j.At loc → loc ∉ sh.host.logPlace? →
    sh.host.tree.Holds loc content mode →
    left.tree.Holds loc
      (some ((j.page loc (j.base loc (content.getD []))).inkAll told).content) mode
  sole : ∀ channel handle content mode, j.handle channel = some handle →
    (∀ other, other ≠ channel → Handle.at? (j.handle other) handle.loc = none) →
    handle.loc ∉ sh.host.logPlace? → sh.host.tree.Holds handle.loc content mode →
    left.tree.Holds handle.loc (some ((if handle.atEnd then content.getD [] else []) ++
      (channel.pieces told).flatten)) mode
  logged : ∀ place threshold logged mode, sh.host.Logs place threshold logged mode →
    ∃ parsed noted failed, left.Logs place threshold
      (((j.page place (j.base place (logged ++ parsed) ++ noted)).inkAll told).content ++ failed)
      mode
  stdout : left.stdout = if (j.handle .out).isSome then sh.host.stdout
    else sh.host.stdout.afterPieces told rest
  roomy : j.handle .out = none → sh.host.stdout.isFull = false →
    left.stdout.written = sh.host.stdout.written ++ (Channel.out.pieces told).flatten
  stderr : left.stderr.bytes = sh.host.stderr.bytes ++ Host.messages errors ++
    if (j.handle .err).isNone then (Channel.err.pieces told).flatten else []

/-- Only the files of the streams and the log are touched once the streams are open. -/
theorem runLine_puts (h : sh.job? line = some (c, j)) (hb : b.name = c.name) :
    let left := (sh.runLine line).2.host
    (∃ told rest, (b.run sh.session j.host.tree j.host.start c.args).writes = told ++ rest ∧
      sh.Puts (sh.reading line).errors j told rest left) ∧
    FileTree.Touches (fun loc => j.At loc ∨ loc ∈ sh.host.logPlace?) j.host.tree left.tree := by
  intro left
  have hbegins := job?_begins h
  have hstdout : j.host.stdout = sh.host.stdout := (job_before h).stdout
  obtain ⟨told, rest, hwrites, hputs⟩ := c.runBuiltin_puts b sh.session j
  have hleft : left = (c.runBuiltin b sh.session j).2.2 :=
    congrArg (·.2.host) (runLine_builtin h hb)
  rw [← hleft] at hputs
  have htree := hputs.tree
  rw [hbegins.logPlace] at htree
  refine ⟨⟨told, rest, hwrites, ?_⟩, htree⟩
  have hfile : ∀ loc content mode, j.At loc → loc ∉ sh.host.logPlace? →
      sh.host.tree.Holds loc content mode → left.tree.Holds loc
        (some ((j.page loc (j.base loc (content.getD []))).inkAll told).content) mode :=
    fun loc content mode hat hunlogged hheld => hputs.file loc _ mode
      (hbegins.logPlace ▸ hunlogged) (hbegins.file loc content mode hat hunlogged hheld)
  constructor
  · exact hputs.refused
  · exact hfile
  · intro channel handle content mode hhandle hothers hunlogged hheld
    have hput := hfile handle.loc content mode ⟨channel, handle, hhandle, rfl⟩ hunlogged hheld
    rwa [Job.page_sole hhandle hothers (hbegins.offset channel handle hhandle)] at hput
  · intro place threshold logged mode hl
    obtain ⟨parsed, hparsed⟩ := hbegins.logged place threshold logged mode hl
    exact ⟨parsed, hputs.logged place threshold _ mode hparsed⟩
  · rw [← hstdout]
    exact hputs.stdout
  · intro hnone hroomy
    rw [hputs.stdout, hnone, hstdout]
    refine Stdout.afterPieces_roomy hroomy fun piece hpiece hout => ?_
    have hrefused := hputs.refused piece hpiece
    rw [hout] at hrefused
    rcases hrefused with ⟨handle, hhandle, -⟩ | ⟨-, hfull⟩
    · cases hnone.symm.trans hhandle
    · rw [Host.isFull, hstdout, hroomy] at hfull
      cases hfull
  · rw [hputs.stderr, hbegins.stderr]

section Losing

variable {loc : Location} {losing name : String}

/-- A line that echoes with two new files of its directory, the first of which loses. -/
structure Losing (sh : Shell) (loc : Location) (losing name line : String) : Prop where
  emptied : sh.AtFile loc losing none FileTree.newFileMode
  extended : sh.AtFile loc name none FileTree.newFileMode
  losingFile : FileName losing
  nameFile : FileName name
  losingShort : (sh.session.cwd.join losing).text.utf8ByteSize < FileTree.pathLimit
  nameShort : (sh.session.cwd.join name).text.utf8ByteSize < FileTree.pathLimit
  words : splitWords line = [.arg "echo", .arg "hi", .redirect ">" .stdoutWrite losing,
    .redirect ">>" .stdoutAppend name]

namespace Losing

variable (h : sh.Losing loc losing name line)
include h

theorem verdict :
    (.stdoutWrite, .ok ⟨sh.session.cwd.join losing, .truncate⟩) ∈
        Resolved.verdicts (Redirect.resolveIn sh.host.start sh.session.cwd) sh.host.tree
          (splitWords line) ∧
      ¬ sh.host.tree.Names sh.host.start (sh.session.cwd.join losing) := by
  constructor
  · obtain ⟨made, notices, hfirst, -, -⟩ := Redirect.resolveIn_child h.emptied.directory
      h.losingFile h.losingShort h.emptied.held .stdoutWrite
    rw [h.words]
    simp only [Resolved.verdicts, if_neg h.losingFile.nonempty, hfirst]
    exact List.mem_cons_self
  · have hnone := h.emptied.held
    rintro ⟨place, node, hfound⟩
    cases hnone with
    | free hnone =>
      rw [FileTree.follow_unused h.emptied.directory h.losingFile h.losingShort .makeNewFile hnone]
        at hfound
      cases hfound

theorem reading :
    ∃ made notices, sh.reading line = ⟨["echo", "hi"],
      (Redirect.Table.empty.set .stdoutWrite ⟨sh.session.cwd.join losing, .truncate⟩).set
        .stdoutAppend ⟨sh.session.cwd.join name, .append⟩, [], notices, made⟩ := by
  obtain ⟨made, notices, hfirst, -, honly⟩ := Redirect.resolveIn_child h.emptied.directory
    h.losingFile h.losingShort h.emptied.held .stdoutWrite
  have hextends := Redirect.resolveIn_extends sh.host.start sh.session.cwd .stdoutWrite losing
    sh.host.tree
  rw [hfirst] at hextends
  have hdirectory := FileTree.look_paved h.emptied.directory honly.paves
  obtain ⟨now, hnow, -⟩ := h.extended.held.grown hextends
  obtain ⟨last, others, hsecond, -, -⟩ :=
    Redirect.resolveIn_child hdirectory h.nameFile h.nameShort hnow .stdoutAppend
  refine ⟨last, notices ++ others, ?_⟩
  have hwords : splitWords line = ["echo", "hi"].map Word.arg ++
      [.redirect ">" .stdoutWrite losing, .redirect ">>" .stdoutAppend name] := h.words
  rw [Shell.reading, Resolved.ofLine, hwords, Resolved.ofWords, List.foldl_append,
    Resolved.run_args]
  simp only [List.foldl_cons, List.foldl_nil, Resolved.start, Resolved.step,
    if_neg h.losingFile.nonempty, if_neg h.nameFile.nonempty, hfirst, hsecond, List.nil_append]
  rfl

theorem job :
    ∃ c j, sh.job? line = some (c, j) ∧ c.name = "echo" ∧ c.args = ["hi"] ∧
      j.streams = ⟨none, some ⟨loc ++ [name], 0, true⟩, none⟩ ∧
      j.host.tree.Holds (loc ++ [name]) (some []) FileTree.newFileMode := by
  obtain ⟨made, notices, hreading⟩ := h.reading
  let table := (Redirect.Table.empty.set .stdoutWrite ⟨sh.session.cwd.join losing, .truncate⟩).set
    .stdoutAppend ⟨sh.session.cwd.join name, .append⟩
  let c : Command := ⟨"echo", ["hi"], table⟩
  let begun := (sh.reported (sh.reading line)).note ⟨.debug, c.summary⟩
  have hnoted := sh.reported_noted line ⟨.debug, c.summary⟩
  have hgrown := sh.reading_extends line
  have hdirectory : begun.tree.look begun.start sh.session.cwd = .ok (loc, .directory) := by
    rw [show begun.start = sh.host.start from hnoted.start]
    exact FileTree.look_paved h.extended.directory
      ((FileTree.Serves.of_extends hgrown).paves.trans hnoted.tree.paves)
  obtain ⟨now, hnow, hempty⟩ := h.extended.held.grown hgrown
  obtain ⟨opened, hopen, hopened, -⟩ := FileTree.openForWriting_child hdirectory h.nameFile
    h.nameShort (hnow.congr (hnoted.tree.kept h.extended.unlogged)) true
  rw [if_pos rfl, hempty] at hopened
  have hin : table .stdinRead = none := rfl
  have hout : table.effective .stdoutWrite .stdoutAppend =
      some ⟨sh.session.cwd.join name, .append⟩ := rfl
  have herr : table.effective .stderrWrite .stderrAppend = none := rfl
  have hstreams : Streams.ofTable begun.tree begun.start table =
      (.ok ⟨none, some ⟨loc ++ [name], 0, true⟩, none⟩, opened) := by
    simp only [Streams.ofTable, Streams.openInput, hin, hout, herr, Streams.openOutput, decide_true,
      hopen]
  let j : Job := ⟨{ begun with tree := opened }, none, some ⟨loc ++ [name], 0, true⟩, none⟩
  have hjob : c.job? begun = some j := by
    rw [Command.job?, hstreams]
  have hcommand : (sh.reading line).command? = some c := by
    rw [hreading]
    rfl
  refine ⟨c, j, ?_, rfl, rfl, rfl, hopened⟩
  rw [job?, hcommand, Option.bind_some, hjob]
  rfl

theorem told {errors : List Redirect.Error} {told rest : List (Channel × String)} {left : Host}
    (hstreams : j.streams = ⟨none, some ⟨loc ++ [name], 0, true⟩, none⟩)
    (hheld : j.host.tree.Holds (loc ++ [name]) (some []) FileTree.newFileMode)
    (hwrites : [(.out, "hi"), (.out, "\n")] = told ++ rest)
    (hputs : sh.Puts errors j told rest left) :
    left.tree.node? (loc ++ [name]) = some (.file (Utf8.ofString "hi\n") FileTree.newFileMode) ∧
      left.stdout = sh.host.stdout := by
  have hout : j.handle .out = some ⟨loc ++ [name], 0, true⟩ := congrArg Streams.stdout hstreams
  have herr : j.handle .err = none := congrArg Streams.stderr hstreams
  have hrest : rest = [] := by
    by_contra hne
    obtain ⟨piece, later, rfl⟩ := List.exists_cons_of_ne_nil hne
    have hmem : piece ∈ [(Channel.out, "hi"), (.out, "\n")] := by simp [hwrites]
    have hchannel : piece.1 = .out := by
      rcases List.mem_pair.mp hmem with rfl | rfl <;> rfl
    have hrefused := hputs.refused piece rfl
    rw [hchannel] at hrefused
    rcases hrefused with ⟨handle, hhandle, hfull⟩ | ⟨hnone, -⟩
    · cases hout.symm.trans hhandle
      cases (hheld.node (by decide)).symm.trans hfull
    · cases hout.symm.trans hnone
  rw [hrest, List.append_nil] at hwrites
  have hothers (other : Channel) (hother : other ≠ .out) :
      Handle.at? (j.handle other) (loc ++ [name]) = none := by
    cases other with
    | out => exact absurd rfl hother
    | err => rw [herr]; rfl
  have hput := hputs.sole .out _ _ _ hout hothers h.extended.unlogged h.extended.held
  have hsaid : (Channel.out.pieces told).flatten = Utf8.ofString "hi\n" := by
    rw [← hwrites]
    decide +kernel
  rw [hsaid] at hput
  refine ⟨hput.node (by decide), ?_⟩
  rw [hputs.stdout, hout]
  rfl

end Losing

end Losing

theorem nested_losing {losing name line : String} (hlosing : FileName losing)
    (hname : FileName name)
    (hshort : ((nested []).session.cwd.join losing).text.utf8ByteSize < FileTree.pathLimit ∧
      ((nested []).session.cwd.join name).text.utf8ByteSize < FileTree.pathLimit)
    (hwords : splitWords line = [.arg "echo", .arg "hi", .redirect ">" .stdoutWrite losing,
      .redirect ">>" .stdoutAppend name]) :
    (nested []).Losing [] losing name line :=
  have hroot : ("/" ++ "/".intercalate []).utf8ByteSize < FileTree.pathLimit := by decide +kernel
  have hatFile := nested_atFile (List.forall_mem_nil _) hroot
  ⟨hatFile losing, hatFile name, hlosing, hname, hshort.1, hshort.2, hwords⟩

/-- A builtin with its streams open puts out its pieces in their order, up to one that is
refused, which only a full device does. A channel leads to the last target that was found
for appending, or else to the last one for overwriting, or else to the shell's own
output. All other nodes that were there stay as they were, but for the event log. And
where the path of a truncating redirect named nothing, it leads to an empty file, if
that is not the file of a stream or the log. -/
theorem runLine_destinations (h : sh.job? line = some (c, j)) (hb : b.name = c.name) :
    let resolve := Redirect.resolveIn sh.host.start sh.session.cwd
    let verdicts := Resolved.verdicts resolve sh.host.tree (splitWords line)
    let left := (sh.runLine line).2.host
    (∀ channel,
      (∀ found, Redirect.Aims verdicts channel found → ∃ handle, j.handle channel = some handle ∧
        handle.IsFor left.tree sh.host.start found) ∧
      ((∀ found, ¬ Redirect.Aims verdicts channel found) → j.handle channel = none)) ∧
    (∃ told rest, (b.run sh.session j.host.tree j.host.start c.args).writes = told ++ rest ∧
      sh.Puts (verdicts.filterMap Redirect.Verdict.error?) j told rest left) ∧
    (∀ loc node, sh.host.tree.node? loc = some node → ¬ j.At loc → loc ∉ sh.host.logPlace? →
      left.tree.node? loc = some node) ∧
    ∀ k found, (k, .ok found) ∈ verdicts → k.mode = .truncate →
      ¬ sh.host.tree.Names sh.host.start found.path →
      ∃ loc node, left.tree.look sh.host.start found.path = .ok (loc, node) ∧
        (¬ j.At loc → loc ∉ sh.host.logPlace? → node = .file [] FileTree.newFileMode) := by
  intro resolve verdicts left
  have hbegins := job?_begins h
  obtain ⟨hputs, hleft⟩ := runLine_puts h hb
  have hgrown := sh.reading_extends line
  have htouched : FileTree.Touches (fun loc => j.At loc ∨ loc ∈ sh.host.logPlace?)
      (sh.reading line).state left.tree :=
    hbegins.tree.trans hleft
  refine ⟨fun channel => ?_, ?_, fun loc node hnode hat hunlogged => ?_, ?_⟩
  · obtain ⟨hnone, hsome⟩ := hbegins.targets _ _ hleft channel
    refine ⟨fun found haims => hsome found (Resolved.effective_eq_some_iff _ _ _ |>.mpr haims), ?_⟩
    intro hnothing
    refine hnone (Option.eq_none_iff_forall_ne_some.mpr fun found hfound => ?_)
    exact hnothing found ((Resolved.effective_eq_some_iff _ _ _).mp hfound)
  · have herrors : (sh.reading line).errors = verdicts.filterMap Redirect.Verdict.error? :=
      (Resolved.run_verdicts (Resolved.start sh.host.tree) (splitWords line)).2.1
    rwa [herrors] at hputs
  · exact (htouched.kept (not_or.mpr ⟨hat, hunlogged⟩)).trans (hgrown.kept loc node hnode)
  · -- what was made while parsing stays, unless a stream or the log writes to it
    intro k found hmem hk hnothing
    obtain ⟨loc, hmade, hlook⟩ := Resolved.verdicts_made (r := Resolved.start sh.host.tree) hmem hk
      fun loc node hfound => absurd ⟨loc, node, hfound⟩ hnothing
    rcases htouched loc with hsame | ⟨hspot, -, content, mode, hfile⟩
    · exact ⟨loc, _, hlook _ _ htouched.paves (hsame.trans hmade) ⟨nofun, nofun⟩, fun _ _ => rfl⟩
    · refine ⟨loc, _, hlook _ _ htouched.paves hfile ⟨nofun, nofun⟩, fun hat hunlogged => ?_⟩
      exact absurd hspot (not_or.mpr ⟨hat, hunlogged⟩)

theorem runLine_destinations_losing :
    let sh := nested []
    let line := "echo hi > f >> g"
    let left := (sh.runLine line).2.host
    ∃ c j, sh.job? line = some (c, j) ∧ Builtin.echo.name = c.name ∧
      left.tree.node? ["g"] = some (.file (Utf8.ofString "hi\n") FileTree.newFileMode) ∧
      left.stdout = sh.host.stdout ∧
      ∃ loc node, left.tree.look sh.host.start ⟨"/f"⟩ = .ok (loc, node) ∧
        (loc ≠ ["g"] → node = .file [] FileTree.newFileMode) := by
  intro sh line left
  have hg : FileName "g" := by decide +kernel
  have hlosing : sh.Losing [] "f" "g" line :=
    nested_losing fileName_f hg (by decide +kernel) (by decide +kernel)
  obtain ⟨c, j, hjob, hname, hargs, hstreams, hheld⟩ := hlosing.job
  have hbuiltin : Builtin.echo.name = c.name := hname.symm
  obtain ⟨-, ⟨told, rest, hwrites, hputs⟩, -, hmade⟩ := runLine_destinations hjob hbuiltin
  rw [hargs] at hwrites
  obtain ⟨hadded, hstdout⟩ := hlosing.told hstreams hheld hwrites hputs
  refine ⟨c, j, hjob, hbuiltin, hadded, hstdout, ?_⟩
  obtain ⟨hverdict, hnothing⟩ := hlosing.verdict
  obtain ⟨loc, node, hlook, hempty⟩ := hmade _ _ hverdict rfl hnothing
  have hpath : sh.session.cwd.join "f" = ⟨"/f"⟩ := by decide +kernel
  rw [hpath] at hlook
  refine ⟨loc, node, hlook, fun hloc => hempty ?_ nofun⟩
  rintro ⟨channel, handle, hhandle, rfl⟩
  cases channel with
  | out =>
    cases (congrArg Streams.stdout hstreams).symm.trans hhandle
    exact hloc rfl
  | err => cases (congrArg Streams.stderr hstreams).symm.trans hhandle

/-- A log gains lines although no channel leads there, and a file that is made for a losing
redirect is not empty when the prevailing one adds to it. -/
theorem runLine_destinations_shared :
    (let sh := logging .debug
     ∃ c j, sh.job? "echo hi" = some (c, j) ∧ Builtin.echo.name = c.name ∧
       (∀ channel, j.handle channel = none) ∧
       sh.host.tree.node? ["log"] = some (.file [] 0o644) ∧
       (sh.runLine "echo hi").2.host.tree.node? ["log"] ≠ some (.file [] 0o644)) ∧
    let sh := nested []
    let line := "echo hi > f >> f"
    let resolve := Redirect.resolveIn sh.host.start sh.session.cwd
    let verdicts := Resolved.verdicts resolve sh.host.tree (splitWords line)
    let losing : Redirect.Target := ⟨sh.session.cwd.join "f", .truncate⟩
    ∃ c j, sh.job? line = some (c, j) ∧ Builtin.echo.name = c.name ∧
      (.stdoutWrite, .ok losing) ∈ verdicts ∧ ¬ Redirect.Aims verdicts .out losing ∧
      ¬ sh.host.tree.Names sh.host.start losing.path ∧
      (sh.runLine line).2.host.tree.node? ["f"] =
        some (.file (Utf8.ofString "hi\n") FileTree.newFileMode) := by
  constructor
  · intro sh
    have hwords : splitWords "echo hi" = ["echo", "hi"].map .arg := by decide +kernel
    refine ⟨_, _, job?_args sh hwords, rfl, ?_, by decide +kernel, by decide +kernel⟩
    rintro (_ | _) <;> rfl
  · intro sh line resolve verdicts losing
    have hlosing : sh.Losing [] "f" "f" line :=
      nested_losing fileName_f fileName_f (by decide +kernel) (by decide +kernel)
    obtain ⟨c, j, hjob, hname, hargs, hstreams, hheld⟩ := hlosing.job
    obtain ⟨⟨told, rest, hwrites, hputs⟩, -⟩ := runLine_puts (b := .echo) hjob hname.symm
    rw [hargs] at hwrites
    obtain ⟨hverdict, hnothing⟩ := hlosing.verdict
    refine ⟨c, j, hjob, hname.symm, hverdict, fun haims => ?_, hnothing,
      (hlosing.told hstreams hheld hwrites hputs).1⟩
    have htable := (Resolved.effective_eq_some_iff resolve sh.host.tree (splitWords line)).mpr haims
    obtain ⟨made, notices, hreading⟩ := hlosing.reading
    rw [show Resolved.ofWords resolve sh.host.tree (splitWords line) = _ from hreading] at htable
    have hmode : some Redirect.Mode.append = some .truncate :=
      congrArg (Option.map Redirect.Target.mode) htable
    cases hmode

end Shell

end LineShell
