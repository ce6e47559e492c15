/-!
# Redirects

A redirect sends one of a command's three streams to a file. Its kind says
which stream and how; a later redirect of one kind replaces an earlier one.
-/

set_option autoImplicit false

namespace LineShell.Redirect

inductive Kind where
  | stdinRead
  | stdinReadAppend
  | stdoutWrite
  | stdoutAppend
  | stderrWrite
  | stderrAppend
  deriving DecidableEq, Repr

inductive Mode where
  | truncate
  | append
  deriving DecidableEq, Repr

namespace Kind

def all : List Kind :=
  [.stdinRead, .stdinReadAppend, .stdoutWrite, .stdoutAppend, .stderrWrite, .stderrAppend]

theorem mem_all (k : Kind) : k ∈ all := by
  cases k <;> decide

def operator : Kind → String
  | stdinRead => "0>"
  | stdinReadAppend => "0>>"
  | stdoutWrite => "1>"
  | stdoutAppend => "1>>"
  | stderrWrite => "2>"
  | stderrAppend => "2>>"

/-- The kind that an operator as typed stands for. The descriptor of standard
output may be left out, and any other text counts as a write to it. -/
def ofOperator (s : String) : Kind :=
  if s = ">>" then stdoutAppend
  else (all.find? fun k => k.operator = s).getD stdoutWrite

theorem ofOperator_operator (k : Kind) : ofOperator k.operator = k := by
  cases k <;> decide

def mode : Kind → Mode
  | stdinRead | stdoutWrite | stderrWrite => .truncate
  | stdinReadAppend | stdoutAppend | stderrAppend => .append

end Kind

end LineShell.Redirect
