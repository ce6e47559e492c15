import LineShell.Notice
import LineShell.Session
import LineShell.Outlets
import LineShell.Text.Numeral

/-!
# Builtins

The commands that the shell runs itself. What such a command does is a report:
the pieces that it writes, the flow, and the session that it leaves.
-/

set_option autoImplicit false

namespace LineShell

inductive Builtin where
  | cd
  | echo
  | exit
  | pwd
  | type
  deriving DecidableEq, Repr

namespace Builtin

def all : List Builtin := [cd, echo, exit, pwd, type]

theorem mem_all (b : Builtin) : b ∈ all := by
  cases b <;> decide

def name : Builtin → String
  | cd => "cd"
  | echo => "echo"
  | exit => "exit"
  | pwd => "pwd"
  | type => "type"

def names : List String := all.map name

def ofName? (s : String) : Option Builtin := all.find? fun b => b.name = s

theorem ofName?_name (b : Builtin) : ofName? b.name = some b := by
  cases b <;> decide

def candidates (typed : String) : List String := names.filter (Completion.startsWith · typed)

structure Report where
  writes : List (Channel × String)
  flow : Flow
  session : Session
  notices : List Notice
  deriving DecidableEq, Repr

/-- Some pieces on one channel and a flow, with nothing else changed. -/
def Report.message (s : Session) (channel : Channel) (pieces : List String) (flow : Flow) :
    Report :=
  ⟨pieces.map (channel, ·), flow, s, []⟩

def Report.deliver {σ : Type} [Outlets σ] (report : Report) (outlets : σ) :
    Except OsError Flow × σ :=
  match Outlets.writeAll outlets report.writes with
  | (none, left) => (.ok report.flow, left)
  | (some e, left) => (.error e, left)

def runCd (s : Session) (t : FileTree) (start : Location) (args : List String) : Report :=
  let enter (shown : String) (target : Path) : Report :=
    if !t.isThere start target then
      .message s .err ["cd: ", shown, ": No such file or directory\n"] (.goOn 1)
    else if !t.isDirectory start target then
      .message s .err ["cd: ", shown, ": Not a directory\n"] (.goOn 1)
    else
      let notice : Notice := ⟨.debug, s!"cd {s.cwd.text} -> {target.text}"⟩
      ⟨[], .goOn 0, { s with cwd := target }, [notice]⟩
  match args with
  | [] =>
    match s.home with
    | some home => enter home.text home
    | none => .message s .out [] (.goOn 0)
  | [dir] => enter dir (s.directory dir)
  | _ => .message s .err ["cd: too many arguments\n"] (.goOn 1)

def runExit (s : Session) (args : List String) : Report :=
  match args with
  | [] => .message s .out [] (.leave 0)
  | [code] =>
    match Numeral.int32? code with
    | some n => .message s .out [] (.leave n)
    | none => .message s .err ["exit: ", code, ": numeric argument required\n"] (.leave 2)
  | _ => .message s .err ["exit: too many arguments\n"] (.goOn 1)

def runPwd (s : Session) (args : List String) : Report :=
  if args.isEmpty then .message s .out [s.cwd.text, "\n"] (.goOn 0)
  else .message s .err ["pwd: too many arguments\n"] (.goOn 1)

/-- What a name means as a command, in pieces, and whether it means anything. -/
def describe (s : Session) (t : FileTree) (start : Location) (name : String) :
    List (Channel × String) × Bool :=
  if (ofName? name).isSome then ([(.out, name), (.out, " is a shell builtin\n")], true)
  else match s.search.find? t start name with
    | some path => ([(.out, name), (.out, " is "), (.out, path.text), (.out, "\n")], true)
    | none => ([(.err, name), (.err, ": not found\n")], false)

def runType (s : Session) (t : FileTree) (start : Location) (args : List String) : Report :=
  let described := args.map (describe s t start)
  ⟨described.flatMap (·.1), .goOn (if described.all (·.2) then 0 else 1), s, []⟩

def run (b : Builtin) (s : Session) (t : FileTree) (start : Location) (args : List String) :
    Report :=
  match b with
  | cd => runCd s t start args
  | echo => .message s .out [" ".intercalate args, "\n"] (.goOn 0)
  | exit => runExit s args
  | pwd => runPwd s args
  | type => runType s t start args

end Builtin

end LineShell
