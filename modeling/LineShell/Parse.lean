import LineShell.Command
import LineShell.Host

/-!
# Parsing lines

A line is parsed against the files around the shell. Resolving its redirects may
make some of them, and what there is to tell of that is logged.
-/

set_option autoImplicit false

namespace LineShell.Host

/-- Parses words whose redirects are seen from a base directory. What there is to
tell is logged at the end, which leaves the same as logging it word by word
(`parseWords_inTurn`). -/
def parseWords (h : Host) (base : Path) (words : List Word) : Resolved FileTree × Host :=
  let resolved := Resolved.ofWords (Redirect.resolveIn h.start base) h.tree words
  (resolved, { h with tree := resolved.state }.noteAll resolved.notices)

def parse (h : Host) (base : Path) (line : String) : Resolved FileTree × Host :=
  h.parseWords base (splitWords line)

end LineShell.Host
