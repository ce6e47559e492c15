import LineShell.Proofs.Dropping
import LineShell.Proofs.Grammar
import LineShell.Proofs.Quoting
import LineShell.Proofs.Sparing

/-!
# Echoing into a file

Lines that echo quoted arguments into a file by its quoted name leave in it what
the arguments say, whatever they hold: one line replaces the content, another
adds to it. Nothing else changes but the log, and nothing is said.
-/

set_option autoImplicit false

namespace LineShell

structure EchoStep where
  args : List String
  /-- The operator is written with its descriptor. -/
  numbered : Bool
  appends : Bool
  deriving DecidableEq, Repr

namespace EchoStep

variable (s : EchoStep)

def operator : String :=
  match s.numbered, s.appends with
  | false, false => ">"
  | false, true => ">>"
  | true, false => "1>"
  | true, true => "1>>"

def kind : Redirect.Kind := if s.appends then .stdoutAppend else .stdoutWrite

def line (name : String) : String :=
  String.ofList ("echo".toList ++ (s.args.flatMap (fun a => ' ' :: singleQuoted a) ++
    (' ' :: s.operator.toList ++ (' ' :: singleQuoted name))))

theorem toList_line (name : String) : (s.line name).toList =
    "echo".toList ++ (s.args.flatMap (fun a => ' ' :: singleQuoted a) ++
      (' ' :: s.operator.toList ++ (' ' :: singleQuoted name))) :=
  String.toList_ofList

/-- What the file holds after the line, given what it held before, if it was there. -/
def leaves (content : Option Bytes) : Bytes :=
  (if s.appends then content.getD [] else []) ++ Utf8.ofString (" ".intercalate s.args ++ "\n")

def leftBy (steps : List EchoStep) (content : Option Bytes) : Option Bytes :=
  steps.foldl (fun held s => some (s.leaves held)) content

def words (name : String) : List Word :=
  .arg "echo" :: s.args.map .arg ++ [.redirect s.operator s.kind name]

theorem ofOperator_operator : Redirect.Kind.ofOperator s.operator = s.kind := by
  obtain ⟨args, numbered, appends⟩ := s
  cases numbered <;> cases appends
  · exact (by decide : Redirect.Kind.ofOperator ">" = .stdoutWrite)
  · exact (by decide : Redirect.Kind.ofOperator ">>" = .stdoutAppend)
  · exact (by decide : Redirect.Kind.ofOperator "1>" = .stdoutWrite)
  · exact (by decide : Redirect.Kind.ofOperator "1>>" = .stdoutAppend)

theorem appends_kind : decide (s.kind.mode = .append) = s.appends := by
  unfold kind
  cases s.appends <;> rfl

theorem operator_spelled :
    ∃ c rest, s.operator.toList = c :: rest ∧ isBlank c = false ∧
      Grammar.IsOperator s.operator.toList := by
  obtain ⟨args, numbered, appends⟩ := s
  cases numbered <;> cases appends
  · have hop : ">".toList = ['>'] := by decide
    exact ⟨'>', [], hop, by decide, [], 1, .inl rfl, .inl rfl, hop⟩
  · have hop : ">>".toList = ['>', '>'] := by decide
    exact ⟨'>', ['>'], hop, by decide, [], 2, .inl rfl, .inr rfl, hop⟩
  · have hop : "1>".toList = ['1', '>'] := by decide
    exact ⟨'1', ['>'], hop, by decide, ['1'], 1, .inr (.inr (.inl rfl)), .inl rfl, hop⟩
  · have hop : "1>>".toList = ['1', '>', '>'] := by decide
    exact ⟨'1', ['>', '>'], hop, by decide, ['1'], 2, .inr (.inr (.inl rfl)), .inr rfl, hop⟩

theorem read_redirect (name : String) :
    Word.read none (' ' :: s.operator.toList ++ (' ' :: singleQuoted name)) =
      [.redirect s.operator s.kind name] := by
  obtain ⟨c, rest, hop, hc, hspelled⟩ := s.operator_spelled
  have hfound : Word.operator? (s.operator.toList ++ (' ' :: singleQuoted name)) =
      some (s.operator.toList, ' ' :: singleQuoted name) :=
    Grammar.operator?_eq_some_iff.mpr ⟨hspelled, rfl, rfl⟩
  have hcs : (' ' :: s.operator.toList ++ (' ' :: singleQuoted name)).dropWhile isBlank =
      c :: (rest ++ (' ' :: singleQuoted name)) := by
    rw [hop, List.cons_append, List.dropWhile_cons_of_pos (by decide), List.cons_append,
      List.dropWhile_cons_of_neg (by simp [hc])]
  rw [hop, List.cons_append] at hfound
  have hblank : ∀ c ∈ [' '], isBlank c = true := List.forall_mem_singleton.mpr (by decide)
  have hends : Word.Ends [] := by rintro d ⟨⟩
  have htarget := (Word.singleQuoted_written name).read (some s.operator) hblank hends
  rw [List.append_nil, List.singleton_append] at htarget
  rw [Word.read_operator hcs hfound, ← hop, String.ofList_toList, htarget,
    Word.read_ended none rfl, Word.ofText, ofOperator_operator]
  rfl

theorem splitWords_line (name : String) : splitWords (s.line name) = s.words name := by
  have hends : Word.Ends (' ' :: s.operator.toList ++ (' ' :: singleQuoted name)) := by
    rintro c ⟨⟩
    decide
  have hliteral : ∀ c ∈ "echo".toList, Word.Literal c ∧ c ≠ '>' :=
    @of_decide_eq_true _ (List.decidableBAll _ _) (by decide +kernel)
  have hecho : Word.Written "echo".toList "echo" := Word.literals_written (by decide) hliteral
  have hargs : ∀ a ∈ s.args, Word.Written (singleQuoted a) a :=
    fun a _ => Word.singleQuoted_written a
  have hread := Word.read_command hecho hargs hends
  rw [s.read_redirect, List.append_assoc] at hread
  rw [splitWords, s.toList_line, hread]
  rfl

end EchoStep

/-! ## Running the line -/

namespace Job

/-- Standard output leads to the end of a file. -/
structure Fills (j : Job) (h : Handle) (content : Bytes) (mode : Nat) : Prop where
  stdout : j.streams.stdout = some h
  held : j.host.tree.Holds h.loc (some content) mode
  atEnd : h.AtEnd content

theorem writeAll_fills {j : Job} {h : Handle} {content : Bytes} {mode : Nat}
    (hj : j.Fills h content mode) (pieces : List String) :
    ∃ u k, Outlets.writeAll j (pieces.map (Channel.out, ·)) =
        (none, { j with host.tree := u, streams.stdout := some k }) ∧
      u.Holds h.loc (some (content ++ pieces.flatMap Utf8.ofString)) mode ∧
      FileTree.Touches (· = h.loc) j.host.tree u := by
  induction pieces generalizing j h content with
  | nil =>
    refine ⟨j.host.tree, h, ?_, by simpa using hj.held, .refl _ _⟩
    rw [← hj.stdout]
    rfl
  | cons piece pieces ih =>
    obtain ⟨u, k, hwrite, hloc, -, hend, hheld, honly⟩ :=
      FileTree.write_end hj.held hj.atEnd (Utf8.ofString piece)
    let next : Job := { j with host.tree := u, streams.stdout := some k }
    have hone : Outlets.write Channel.out j (Utf8.ofString piece) = (none, next) := by
      show writeVia share .out j (Utf8.ofString piece) = _
      unfold writeVia
      simp only [handle, hj.stdout, hwrite, setHandle]
      rfl
    have hnext : next.Fills k (content ++ Utf8.ofString piece) mode := ⟨rfl, hloc ▸ hheld, hend⟩
    obtain ⟨v, m, hwriteAll, hv, hrest⟩ := ih hnext
    rw [hloc] at hv hrest
    refine ⟨v, m, ?_, ?_, honly.trans hrest⟩
    · rw [List.map_cons, Outlets.writeAll, hone]
      exact hwriteAll
    · rw [List.flatMap_cons, ← List.append_assoc]
      exact hv

theorem emit_fills {j : Job} {h : Handle} {content : Bytes} {mode : Nat}
    (hj : j.Fills h content mode) (pieces : List String) :
    ∃ u k, Outlets.emit j (pieces.map (Channel.out, ·)) =
        (none, { j with host.tree := u, streams.stdout := some k }) ∧
      u.Holds h.loc (some (content ++ pieces.flatMap Utf8.ofString)) mode ∧
      FileTree.Touches (· = h.loc) j.host.tree u := by
  obtain ⟨u, k, hwrite, hheld, honly⟩ := writeAll_fills hj pieces
  refine ⟨u, k, ?_, hheld, honly⟩
  rw [Outlets.emit, hwrite]
  rfl

end Job

theorem Command.runBuiltin_written {c : Command} {b : Builtin} {s : Session} {j k : Job}
    (h : Outlets.emit
      { j with host := j.host.noteAll (b.run s j.host.tree j.host.start c.args).notices }
      (b.run s j.host.tree j.host.start c.args).writes = (none, k)) :
    c.runBuiltin b s j = ((b.run s j.host.tree j.host.start c.args).flow,
      (b.run s j.host.tree j.host.start c.args).session, k.host) := by
  simp only [runBuiltin_emit, h]

theorem Command.execute_echo {table : Redirect.Table} {h : Host} {target : Redirect.Target}
    {opened : FileTree} {handle : Handle} {content : Bytes} {mode : Nat} (args : List String)
    (s : Session) (hin : table .stdinRead = none)
    (hout : table.effective .stdoutWrite .stdoutAppend = some target)
    (herr : table.effective .stderrWrite .stderrAppend = none)
    (hopen : h.tree.openForWriting h.start (target.mode = .append) target.path =
      .ok (opened, handle))
    (hheld : opened.Holds handle.loc (some content) mode) (hend : handle.AtEnd content) :
    ∃ u, (Command.mk "echo" args table).execute s h = (.goOn 0, s, { h with tree := u }) ∧
      u.node? handle.loc =
        some (.file (content ++ Utf8.ofString (" ".intercalate args ++ "\n")) mode) ∧
      FileTree.Touches (· = handle.loc) opened u := by
  let j : Job := ⟨{ h with tree := opened }, ⟨none, some handle, none⟩⟩
  have hj : j.Fills handle content mode := ⟨rfl, hheld, hend⟩
  obtain ⟨u, k, hemit, hu, honly⟩ := Job.emit_fills hj [" ".intercalate args, "\n"]
  refine ⟨u, ?_, ?_, honly⟩
  · have hstreams : Streams.ofTable h.tree h.start table =
        (.ok ⟨none, some handle, none⟩, opened) := by
      simp only [Streams.ofTable, Streams.openInput, hin, hout, herr, Streams.openOutput, hopen]
    have hname : Builtin.ofName? "echo" = some .echo := by decide
    unfold execute
    simp only [hstreams, hname]
    exact runBuiltin_written (c := ⟨"echo", args, table⟩) (b := .echo) (s := s) (j := j) hemit
  · have htext : [" ".intercalate args, "\n"].flatMap Utf8.ofString =
        Utf8.ofString (" ".intercalate args ++ "\n") := by
      simp [Utf8.ofString_append]
    rw [htext] at hu
    exact hheld.changed hu (by simp [Utf8.ofString_line_ne_nil]) honly

namespace Resolved

theorem run_args {σ : Type} (resolve : Redirect.Resolver σ) (r : Resolved σ) (texts : List String) :
    (texts.map Word.arg).foldl (step resolve) r = { r with texts := r.texts ++ texts } := by
  induction texts generalizing r with
  | nil => simp
  | cons text texts ih =>
    rw [List.map_cons, List.foldl_cons, ih]
    simp [step]

end Resolved

namespace Shell

/-- The session is in a directory, and this is what one of its files holds, if it
is there. The log is another file. -/
structure AtFile (sh : Shell) (loc : Location) (name : String) (content : Option Bytes)
    (mode : Nat) : Prop where
  directory : sh.host.tree.look sh.host.start sh.session.cwd = .ok (loc, .directory)
  held : sh.host.tree.Holds (loc ++ [name]) content mode
  unlogged : loc ++ [name] ∉ sh.host.logPlace?

section Echo

variable {sh : Shell} {loc : Location} {name : String} {content : Option Bytes} {mode : Nat}

theorem reading_step (sh : Shell) (s : EchoStep) (name : String) :
    sh.reading (s.line name) = Resolved.step (Redirect.resolveIn sh.host.start sh.session.cwd)
      ⟨"echo" :: s.args, .empty, [], [], sh.host.tree⟩ (.redirect s.operator s.kind name) := by
  have hwords : s.words name =
      ("echo" :: s.args).map Word.arg ++ [.redirect s.operator s.kind name] := rfl
  rw [reading, Resolved.ofLine, s.splitWords_line, Resolved.ofWords, hwords, List.foldl_append,
    Resolved.run_args]
  rfl

theorem reading_echo (h : sh.AtFile loc name content mode) (hname : FileName name)
    (hshort : (sh.session.cwd.join name).text.utf8ByteSize < FileTree.pathLimit) (s : EchoStep) :
    ∃ made notices, sh.reading (s.line name) =
        ⟨"echo" :: s.args, Redirect.Table.empty.set s.kind ⟨sh.session.cwd.join name, s.kind.mode⟩,
          [], notices, made⟩ ∧
      made.Holds (loc ++ [name])
        (if s.appends then content else some (content.getD [])) mode ∧
      FileTree.Touches (· = loc ++ [name]) sh.host.tree made := by
  obtain ⟨made, notices, hresolve, hheld, honly⟩ :=
    Redirect.resolveIn_child h.directory hname hshort h.held s.kind
  have hmode : s.kind.mode = .append ↔ s.appends = true := by
    rw [← s.appends_kind, decide_eq_true_iff]
  refine ⟨made, notices, ?_, ?_, honly⟩
  · rw [reading_step]
    simp only [Resolved.step, if_neg hname.nonempty, hresolve, List.nil_append]
  · simpa only [hmode] using hheld

/-- One line fills the file and spares everything else. What was made of the line
is logged when its redirect is resolved and its command not yet run. -/
theorem runLine_echo (h : sh.AtFile loc name content mode) (hname : FileName name)
    (hshort : (sh.session.cwd.join name).text.utf8ByteSize < FileTree.pathLimit) (s : EchoStep) :
    ∃ parsed summary host, sh.runLine (s.line name) = (.goOn 0, { sh with host }) ∧
      Host.Spares (loc ++ [name]) sh.host parsed ∧
      Host.Spares (loc ++ [name]) (parsed.note ⟨.debug, summary⟩) host ∧
      AtFile { sh with host } loc name (some (s.leaves content)) mode ∧
      host.tree.node? (loc ++ [name]) = some (.file (s.leaves content) mode) := by
  obtain ⟨made, notices, hreading, hmade, honly⟩ := reading_echo h hname hshort s
  let table := Redirect.Table.empty.set s.kind ⟨sh.session.cwd.join name, s.kind.mode⟩
  let command : Command := ⟨"echo", s.args, table⟩
  let parsed : Host := { sh.host with tree := made }.noteAll notices
  let begun : Host := parsed.note ⟨.debug, command.summary⟩
  have hparsed : Host.Spares (loc ++ [name]) sh.host parsed :=
    (Host.Spares.tree honly).trans (Host.noteAll_spares _ notices _)
  have hbegun : Host.Spares (loc ++ [name]) sh.host begun :=
    hparsed.trans (parsed.note_spares _ _)
  have hdirectory : begun.tree.look begun.start sh.session.cwd = .ok (loc, .directory) := by
    rw [hbegun.start]
    exact FileTree.look_paved h.directory hbegun.paves
  have hheld : begun.tree.Holds (loc ++ [name])
      (if s.appends then content else some (content.getD [])) mode := by
    have hresolved : parsed.tree.node? (loc ++ [name]) = made.node? (loc ++ [name]) :=
      Host.noteAll_node { sh.host with tree := made } notices h.unlogged
    have hlogged : begun.tree.node? (loc ++ [name]) = parsed.tree.node? (loc ++ [name]) :=
      (parsed.note_touches _).kept (hparsed.logPlace ▸ h.unlogged)
    exact hmade.congr (hlogged.trans hresolved)
  obtain ⟨opened, hopen, hopened, honlyOpened⟩ :=
    FileTree.openForWriting_child hdirectory hname hshort hheld s.appends
  have hbefore : (if s.appends then (if s.appends then content else some (content.getD [])).getD []
      else []) = if s.appends then content.getD [] else [] := by
    cases s.appends <;> rfl
  have hend : (⟨loc ++ [name], 0, s.appends⟩ : Handle).AtEnd
      (if s.appends then content.getD [] else []) := by
    cases s.appends with
    | true => exact .inl rfl
    | false => exact .inr rfl
  rw [hbefore] at hopened
  rw [← s.appends_kind] at hopen
  have htable : table .stdinRead = none ∧
      table.effective .stdoutWrite .stdoutAppend =
        some ⟨sh.session.cwd.join name, s.kind.mode⟩ ∧
      table.effective .stderrWrite .stderrAppend = none := by
    unfold table EchoStep.kind
    cases s.appends <;> exact ⟨rfl, rfl, rfl⟩
  obtain ⟨u, hexecute, hu, honlyWritten⟩ := Command.execute_echo s.args sh.session htable.1
    htable.2.1 htable.2.2 hopen hopened (s.appends_kind ▸ hend)
  have hfinal : Host.Spares (loc ++ [name]) begun { begun with tree := u } :=
    .tree (honlyOpened.trans honlyWritten)
  refine ⟨parsed, command.summary, { begun with tree := u }, ?_, hparsed, hfinal, ⟨?_, .file hu, ?_⟩, hu⟩
  · rw [runLine_perform, hreading]
    show sh.perform (some command) parsed = _
    unfold perform
    dsimp only
    rw [hexecute]
  · show u.look begun.start sh.session.cwd = _
    exact FileTree.look_paved hdirectory hfinal.paves
  · rw [show Host.logPlace? _ = _ from (hbegun.trans hfinal).logPlace]
    exact h.unlogged

def runEach (sh : Shell) : List String → List Flow × Shell
  | [] => ([], sh)
  | line :: lines =>
    let (flow, sh) := sh.runLine line
    let (flows, sh) := runEach sh lines
    (flow :: flows, sh)

theorem runEach_spares (h : sh.AtFile loc name content mode) (hname : FileName name)
    (hshort : (sh.session.cwd.join name).text.utf8ByteSize < FileTree.pathLimit)
    (steps : List EchoStep) :
    ∃ host, sh.runEach (steps.map (·.line name)) = (steps.map fun _ => .goOn 0, { sh with host }) ∧
      Host.Spares (loc ++ [name]) sh.host host ∧
      (steps = [] ∧ host = sh.host ∨
        host.tree.node? (loc ++ [name]) = (EchoStep.leftBy steps content).map (.file · mode)) := by
  induction steps generalizing sh content with
  | nil => exact ⟨sh.host, rfl, .refl _ _, .inl ⟨rfl, rfl⟩⟩
  | cons s steps ih =>
    obtain ⟨parsed, summary, host, hline, hparsed, hbegun, hafter, hfile⟩ :=
      runLine_echo h hname hshort s
    have hfirst := (hparsed.trans (parsed.note_spares _ _)).trans hbegun
    obtain ⟨last, hlines, hrest, hleft⟩ := ih hafter hshort
    refine ⟨last, ?_, hfirst.trans hrest, .inr ?_⟩
    · rw [List.map_cons, runEach, hline]
      dsimp only
      rw [hlines]
      rfl
    · rcases hleft with ⟨rfl, rfl⟩ | hleft
      · exact hfile
      · exact hleft

/-- Lines that echo into one file leave in it what they say, one after another.
They say nothing else, and change nothing else but the log, which is added to. -/
theorem runEach_echo (h : sh.AtFile loc name content mode) (hname : FileName name)
    (hshort : (sh.session.cwd.join name).text.utf8ByteSize < FileTree.pathLimit)
    (steps : List EchoStep) :
    let ran := sh.runEach (steps.map (·.line name))
    ran.1 = steps.map (fun _ => .goOn 0) ∧ ran.2.session = sh.session ∧
      ran.2.host.stdout = sh.host.stdout ∧ ran.2.host.stderr = sh.host.stderr ∧
      (∀ place, place ≠ loc ++ [name] → place ∉ sh.host.logPlace? →
        ran.2.host.tree.node? place = sh.host.tree.node? place) ∧
      (∀ place threshold logged logMode, sh.host.Logs place threshold logged logMode →
        ∃ more, ran.2.host.Logs place threshold (logged ++ more) logMode) ∧
      (steps ≠ [] → ran.2.host.tree.node? (loc ++ [name]) =
        (EchoStep.leftBy steps content).map (.file · mode)) := by
  obtain ⟨host, hran, hspares, hleft⟩ := runEach_spares h hname hshort steps
  intro ran
  have hran : ran = _ := hran
  rw [hran]
  refine ⟨rfl, rfl, hspares.stdout, hspares.stderr, hspares.node, ?_, ?_⟩
  · intro place threshold logged logMode hlogs
    refine hspares.log place threshold logged logMode ?_ hlogs
    rintro rfl
    exact h.unlogged hlogs.logPlace
  · exact fun hsteps => hleft.resolve_left fun hnone => hsteps hnone.1

end Echo

theorem fileName_f : FileName "f" := by decide +kernel

theorem logging_atFile (threshold : Level) :
    (logging threshold).AtFile [] "f" none FileTree.newFileMode := by
  refine ⟨FileTree.look_root _ _, .free rfl, ?_⟩
  show ["f"] ∉ some ["log"]
  decide

theorem runEach_echo_quotes :
    let sh := logging .debug
    let steps : List EchoStep := [⟨["it's", "\\"], false, false⟩, ⟨["> b"], true, true⟩]
    let ran := sh.runEach (steps.map (·.line "f"))
    sh.AtFile [] "f" none FileTree.newFileMode ∧ FileName "f" ∧
      (sh.session.cwd.join "f").text.utf8ByteSize < FileTree.pathLimit ∧
      ran.1 = [.goOn 0, .goOn 0] ∧
      ran.2.host.tree.node? ["f"] =
        some (.file (Utf8.ofString "it's \\\n> b\n") FileTree.newFileMode) := by
  intro sh steps ran
  have hshort : (sh.session.cwd.join "f").text.utf8ByteSize < FileTree.pathLimit := by
    decide +kernel
  obtain ⟨hflows, -, -, -, -, -, hleft⟩ :=
    runEach_echo (logging_atFile .debug) fileName_f hshort steps
  have hwritten : EchoStep.leftBy steps none = some (Utf8.ofString "it's \\\n> b\n") := by
    decide +kernel
  rw [hwritten] at hleft
  exact ⟨logging_atFile .debug, fileName_f, hshort, hflows, hleft (by decide)⟩

/-! ## What a line cannot spare -/

theorem runLine_echo_logged {sh : Shell} {loc place : Location} {name : String}
    {content : Option Bytes} {logged : Bytes} {mode logMode : Nat}
    (h : sh.AtFile loc name content mode) (hname : FileName name)
    (hshort : (sh.session.cwd.join name).text.utf8ByteSize < FileTree.pathLimit)
    (hlogs : sh.host.Logs place .debug logged logMode) (s : EchoStep) :
    ∃ more, more ≠ [] ∧ (sh.runLine (s.line name)).2.host.Logs place .debug (logged ++ more)
      logMode := by
  have hplace : place ≠ loc ++ [name] := by
    rintro rfl
    exact h.unlogged hlogs.logPlace
  obtain ⟨parsed, summary, host, hline, hparsed, hbegun, -, -⟩ := runLine_echo h hname hshort s
  obtain ⟨earlier, hearlier⟩ := hparsed.log place .debug logged logMode hplace hlogs
  have hnoted := hearlier.note ⟨.debug, summary⟩
  obtain ⟨later, hlater⟩ := hbegun.log place .debug _ logMode hplace hnoted
  rw [hline]
  simp only [List.append_assoc] at hlater
  refine ⟨_, ?_, hlater⟩
  have hadmits : Level.debug.admits .debug = true := rfl
  simp [hadmits, Host.logLine_nonempty]

theorem runLine_echo_long {sh : Shell} {loc : Location} {name : String}
    (h : sh.host.tree.look sh.host.start sh.session.cwd = .ok (loc, .directory))
    (hname : FileName name)
    (hlong : FileTree.pathLimit ≤ (sh.session.cwd.join name).text.utf8ByteSize)
    {s : EchoStep} (hs : s.appends = false) :
    (sh.runLine (s.line name)).2.host.stderr ≠ sh.host.stderr := by
  have htruncates : s.kind.mode = .truncate := by
    rw [EchoStep.kind, hs]
    rfl
  have herrors : (sh.reading (s.line name)).errors =
      [.createFailed (sh.session.cwd.join name) .nameTooLong] := by
    rw [reading_step]
    simp only [Resolved.step, if_neg hname.nonempty,
      Redirect.resolveIn_long h hname hlong htruncates, List.nil_append]
  obtain ⟨written, hstderr⟩ := runLine_stderr sh (s.line name)
  rw [herrors] at hstderr
  intro hsame
  rw [hsame] at hstderr
  simp [Host.messages, Utf8.ofString_line_ne_nil] at hstderr

end Shell

theorem fileName_replicate {c : Char} {n : Nat} (hn : 2 < n) (hslash : c ≠ '/')
    (hnul : c.toNat ≠ 0)
    (hshort : (String.ofList (List.replicate n c)).utf8ByteSize ≤ FileTree.nameLimit) :
    FileName (String.ofList (List.replicate n c)) := by
  have hother : ∀ {word : String}, word.toList.length ≤ 2 →
      String.ofList (List.replicate n c) ≠ word := by
    rintro word hword rfl
    rw [String.toList_ofList, List.length_replicate] at hword
    omega
  refine ⟨hother (by decide), ?_, ?_, hother (by decide), hother (by decide), by omega⟩
  · rw [String.toList_ofList]
    exact fun hmem => hslash (List.eq_of_mem_replicate hmem).symm
  · intro c' hmem
    rw [String.toList_ofList] at hmem
    rw [List.eq_of_mem_replicate hmem]
    exact hnul

namespace FileTree

def chain (loc : Location) : FileTree :=
  ⟨(List.range loc.length).map fun n => (loc.take (n + 1), .directory)⟩

theorem chain_directory {loc reached : Location} (h : reached <+: loc) :
    (chain loc).node? reached = some .directory := by
  by_cases hroot : reached = []
  · rw [hroot]
    rfl
  have hlength := List.length_pos_iff.mpr hroot
  have hmem : (reached, Node.directory) ∈ (chain loc).entries := by
    refine List.mem_map.mpr ⟨reached.length - 1, ?_, ?_⟩
    · have hle := h.length_le
      rw [List.mem_range]
      omega
    · rw [Nat.sub_add_cancel hlength, ← List.prefix_iff_eq_take.mp h]
  rw [node?, if_neg hroot]
  cases hfound : (chain loc).entries.lookup reached with
  | none =>
    have hkey := List.lookup_eq_none_iff.mp hfound _ hmem
    simp at hkey
  | some node =>
    obtain ⟨before, after, hentries, -⟩ := List.lookup_eq_some_iff.mp hfound
    have hentry : (reached, node) ∈ (chain loc).entries := by simp [hentries]
    obtain ⟨n, -, hn⟩ := List.mem_map.mp hentry
    rw [(Prod.mk.inj hn).2]

theorem chain_below (loc : Location) (name : String) :
    (chain loc).node? (loc ++ [name]) = none := by
  rw [node?, if_neg (by simp), List.lookup_eq_none_iff]
  intro e he
  obtain ⟨n, hn, rfl⟩ := List.mem_map.mp he
  rw [bne_iff_ne]
  intro hsame
  have hlength := congrArg List.length hsame
  rw [List.length_append, List.length_singleton, List.length_take] at hlength
  omega

end FileTree

namespace Shell

def nested (loc : Location) : Shell :=
  ofSession ⟨"$ ", true, [], "off", ""⟩ ⟨⟨"/" ++ "/".intercalate loc⟩, none, ⟨[]⟩⟩
    ⟨.chain loc, [], none, .opened false, .empty, ⟨[], none, "00:00:00"⟩⟩

theorem nested_atFile {loc : Location} (hsteps : ∀ step ∈ loc, FileName step)
    (hshort : ("/" ++ "/".intercalate loc).utf8ByteSize < FileTree.pathLimit) (name : String) :
    (nested loc).AtFile loc name none FileTree.newFileMode :=
  ⟨FileTree.look_location _ hsteps (fun _ h => FileTree.chain_directory h) hshort,
    .free (FileTree.chain_below loc name), nofun⟩

/-- One more line in the log, or a path that is too long. -/
theorem runLine_echo_barred :
    let s : EchoStep := ⟨["hi"], false, false⟩
    let loc := List.replicate 16 (String.ofList (List.replicate 240 'd'))
    let name := String.ofList (List.replicate 255 'f')
    ((logging .debug).AtFile [] "f" none FileTree.newFileMode ∧ FileName "f" ∧
      ((logging .debug).runLine (s.line "f")).2.host.tree.node? ["log"] ≠
        (logging .debug).host.tree.node? ["log"]) ∧
    (nested loc).AtFile loc name none FileTree.newFileMode ∧ FileName name ∧
      ((nested loc).runLine (s.line name)).2.host.stderr ≠ (nested loc).host.stderr := by
  intro s loc name
  refine ⟨⟨logging_atFile .debug, fileName_f, ?_⟩, ?_⟩
  · have hshort : ((logging .debug).session.cwd.join "f").text.utf8ByteSize <
        FileTree.pathLimit := by
      decide +kernel
    have hempty : (logging .debug).host.tree.node? ["log"] = some (.file [] 0o644) := by
      decide +kernel
    have hlogs : (logging .debug).host.Logs ["log"] .debug [] 0o644 :=
      ⟨⟨⟨["log"], 0, true⟩, rfl, rfl, rfl⟩, .file hempty⟩
    obtain ⟨more, hmore, hlogged⟩ :=
      runLine_echo_logged (logging_atFile .debug) fileName_f hshort hlogs s
    intro hsame
    have hboth := (hlogged.held.node (by decide)).symm.trans (hsame.trans hempty)
    simp only [Option.some.injEq, Node.file.injEq] at hboth
    exact hmore hboth.1
  · have hstep : FileName (String.ofList (List.replicate 240 'd')) :=
      fileName_replicate (by decide) (by decide) (by decide) (by decide +kernel)
    have hname : FileName name :=
      fileName_replicate (by decide) (by decide) (by decide) (by decide +kernel)
    have hsteps : ∀ step ∈ loc, FileName step := by
      intro step hstep'
      rw [List.eq_of_mem_replicate hstep']
      exact hstep
    have hcwd : ("/" ++ "/".intercalate loc).utf8ByteSize = 3856 := by decide +kernel
    have hsize : name.utf8ByteSize = 255 := by decide +kernel
    have hatFile := nested_atFile hsteps (by rw [hcwd]; decide) name
    have hlong : FileTree.pathLimit ≤ ((nested loc).session.cwd.join name).text.utf8ByteSize := by
      have hjoin := Path.join_size (nested loc).session.cwd hname
      have hlimit : FileTree.pathLimit = 4096 := rfl
      change ("/" ++ "/".intercalate loc).utf8ByteSize + _ ≤ _ at hjoin
      omega
    exact ⟨hatFile, hname, runLine_echo_long hatFile.directory hname hlong rfl⟩

end Shell

end LineShell
