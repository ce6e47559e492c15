import LineShell.Toml.Reader

/-!
# Writing TOML

A string is written in the plainest style that holds it. Several strings in an
array stand on lines of their own.
-/

set_option autoImplicit false

namespace LineShell.Toml

def needsEscape (c : Char) : Bool := !isPlain c && c ≠ '\n'

def hasThree (q : Char) : List Char → Bool
  | [] => false
  | c :: rest => (q :: q :: q :: []).isPrefixOf (c :: rest) || hasThree q rest

def hexUpper (n : Nat) : List Char := (Nat.toDigits 16 n).map Char.toUpper

/-- The escape of a character other than a quote, if it takes one. -/
def escapeOf? (lines : Bool) (c : Char) : Option (List Char) :=
  if c = '\x08' then some ['\\', 'b']
  else if c = '\t' then some ['\\', 't']
  else if c = '\n' then if lines then none else some ['\\', 'n']
  else if c = '\x0c' then some ['\\', 'f']
  else if c = '\r' then some ['\\', 'r']
  else if c = '\\' then some ['\\', '\\']
  else if needsEscape c then
    some (['\\', 'u', '0', '0'] ++ (if c.toNat < 0x10 then ['0'] else []) ++ hexUpper c.toNat)
  else none

/-- The text with escapes. On several lines up to two quotes in a row stand for
themselves; `run` is how many have just been written. -/
def escaped (lines : Bool) (run : Nat) : List Char → List Char
  | [] => []
  | c :: rest =>
    if c = '"' then
      if run < (if lines then 2 else 0) then '"' :: escaped lines (run + 1) rest
      else '\\' :: '"' :: escaped lines 0 rest
    else match escapeOf? lines c with
      | some e => e ++ escaped lines 0 rest
      | none => c :: escaped lines 0 rest

def threeOf (q : Char) : List Char := [q, q, q]

def stringText (s : String) : List Char :=
  let cs := s.toList
  let hasLines := cs.contains '\n'
  let opening := if hasLines then ['\n'] else []
  let oneLine := '"' :: escaped false 0 cs ++ ['"']
  let severalLines := threeOf '"' ++ opening ++ escaped true 0 cs ++ threeOf '"'
  let isClean := !cs.any needsEscape
  if isClean && !hasLines && !cs.contains '"' && !cs.contains '\\' then oneLine
  else if isClean && !hasLines && !cs.contains '\x27' then '\x27' :: cs ++ ['\x27']
  else if isClean && !cs.contains '\\' && !hasThree '"' cs then severalLines
  else if isClean && !hasThree '\x27' cs then threeOf '\x27' ++ opening ++ cs ++ threeOf '\x27'
  else if hasLines then severalLines
  else oneLine

def arrayText : List String → List Char
  | [] => "[]".toList
  | [s] => '[' :: stringText s ++ [']']
  | items =>
    "[\n".toList ++ items.flatMap (fun s => "    ".toList ++ stringText s ++ ",\n".toList) ++ [']']

def booleanText (b : Bool) : List Char := (if b then "true" else "false").toList

def pairText (name : String) (value : List Char) : List Char :=
  name.toList ++ " = ".toList ++ value ++ ['\n']

def sectionText (name : String) (pairs : List (List Char)) : List Char :=
  '[' :: name.toList ++ "]\n".toList ++ pairs.flatten

end LineShell.Toml
