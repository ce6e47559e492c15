/-!
# Numerals

Whole numbers in decimal: an optional sign and at least one digit.
-/

set_option autoImplicit false

namespace LineShell.Numeral

def isDigit (c : Char) : Bool := '0' ≤ c && c ≤ '9'

def digitValue (c : Char) : Nat := c.toNat - '0'.toNat

def value (digits : List Char) : Nat := digits.foldl (fun n c => 10 * n + digitValue c) 0

def natural? (cs : List Char) : Option Nat :=
  if !cs.isEmpty && cs.all isDigit then some (value cs) else none

def integer? : List Char → Option Int
  | '-' :: cs => (natural? cs).map fun n => -(n : Int)
  | '+' :: cs => (natural? cs).map Int.ofNat
  | cs => (natural? cs).map Int.ofNat

/-- A number that fits into 32 bits with a sign. -/
def int32? (s : String) : Option Int :=
  (integer? s.toList).filter fun n => -0x80000000 ≤ n && n < 0x80000000

end LineShell.Numeral
