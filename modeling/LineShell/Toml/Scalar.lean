import LineShell.Text.Numeral
import LineShell.Toml.Strings
import LineShell.Toml.Value

/-!
# TOML scalars

The values that are written without delimiters: booleans, numbers, dates and
times. All their characters are of one class, so that the longest run of it is
the whole text of the value.
-/

set_option autoImplicit false

namespace LineShell.Toml

def isScalarChar (c : Char) : Bool :=
  c.isAlphanum || c = '_' || c = '+' || c = '-' || c = '.' || c = ':'

/-- Digits with at most one underscore between any two of them. -/
def grouped (p : Char → Bool) : List Char → Bool
  | [] => false
  | [c] => p c
  | c :: '_' :: rest => p c && grouped p rest
  | c :: rest => p c && grouped p rest

def isDigitOrBar (c : Char) : Bool := Numeral.isDigit c || c = '_'

def ungrouped (cs : List Char) : List Char := cs.filter (· ≠ '_')

def inRange (n : Int) : Bool := -0x8000000000000000 ≤ n && n < 0x8000000000000000

def splitSign : List Char → Bool × List Char
  | '-' :: cs => (true, cs)
  | '+' :: cs => (false, cs)
  | cs => (false, cs)

def isWhole (cs : List Char) : Bool :=
  grouped Numeral.isDigit cs && (cs.length = 1 || cs.head? ≠ some '0')

def radixNumber? (radix : Nat) (cs : List Char) : Option Value :=
  let isValid (c : Char) : Bool := (hexValue? c).any (· < radix)
  if grouped isValid cs then
    let n : Nat := (ungrouped cs).foldl (fun n c => radix * n + (hexValue? c).getD 0) 0
    if inRange n then some (.integer n) else none
  else none

def integer? (cs : List Char) : Option Value :=
  match cs with
  | '0' :: 'x' :: rest => radixNumber? 16 rest
  | '0' :: 'o' :: rest => radixNumber? 8 rest
  | '0' :: 'b' :: rest => radixNumber? 2 rest
  | _ =>
    let (negative, digits) := splitSign cs
    if isWhole digits then
      let size : Int := Numeral.value (ungrouped digits)
      let n := if negative then -size else size
      if inRange n then some (.integer n) else none
    else none

/-- The exponent from which on a decimal fraction of one digit before the point
is certainly beyond all floating point numbers. -/
def hugeExponent : Int := 310

/-- The least number that rounds to infinity. -/
def infinityThreshold : Nat := Nat.pow 2 1024 - Nat.pow 2 970

def overflows (digits : List Char) (exponent : Int) : Bool :=
  let significant := digits.dropWhile (· = '0')
  let size : Int := significant.length + exponent
  if significant.isEmpty || size < 300 then false
  else if size > hugeExponent then true
  else if exponent ≥ 0 then
    Numeral.value significant * Nat.pow 10 exponent.toNat ≥ infinityThreshold
  else Numeral.value significant ≥ infinityThreshold * Nat.pow 10 (-exponent).toNat

/-- The text of an exponent after its letter; an absent one counts as zero. -/
def exponent? : List Char → Option Int
  | [] => some 0
  | e :: rest =>
    let (negative, digits) := splitSign rest
    if (e = 'e' || e = 'E') && grouped Numeral.isDigit digits then
      let size : Int := Numeral.value (ungrouped digits)
      some (if negative then -size else size)
    else none

/-- A number with a fraction or an exponent. Only a positive one can be too
large. -/
def float? (cs : List Char) : Option Value :=
  let (negative, unsigned) := splitSign cs
  let whole := unsigned.takeWhile isDigitOrBar
  let rest := unsigned.dropWhile isDigitOrBar
  let (fraction, power) := match rest with
    | '.' :: rest => (some (rest.takeWhile isDigitOrBar), rest.dropWhile isDigitOrBar)
    | rest => (none, rest)
  if unsigned = "inf".toList || unsigned = "nan".toList then some .float
  else if rest.isEmpty || !isWhole whole || !fraction.all (grouped Numeral.isDigit) then none
  else match exponent? power with
    | none => none
    | some e =>
      let decimals := ungrouped (fraction.getD [])
      if !negative && overflows (ungrouped whole ++ decimals) (e - decimals.length) then none
      else some .float

def fixedNumber? (count least greatest : Nat) (cs : List Char) : Option (Nat × List Char) :=
  let digits := cs.take count
  let n := Numeral.value digits
  if digits.length = count && digits.all Numeral.isDigit && least ≤ n && n ≤ greatest then
    some (n, cs.drop count)
  else none

def expect? (p : Char → Bool) : List Char → Option (List Char)
  | [] => none
  | c :: rest => if p c then some rest else none

def daysIn (year month : Nat) : Nat :=
  if month = 2 then
    if year % 4 = 0 && (year % 100 ≠ 0 || year % 400 = 0) then 29 else 28
  else if month = 4 || month = 6 || month = 9 || month = 11 then 30
  else 31

def afterDate? (cs : List Char) : Option (List Char) := do
  let (year, cs) ← fixedNumber? 4 0 9999 cs
  let cs ← expect? (· = '-') cs
  let (month, cs) ← fixedNumber? 2 1 12 cs
  let cs ← expect? (· = '-') cs
  let (_, cs) ← fixedNumber? 2 1 (daysIn year month) cs
  return cs

/-- What follows a time of day at the front of a text. There may be a leap
second. -/
def afterTime? (cs : List Char) : Option (List Char) := do
  let (_, cs) ← fixedNumber? 2 0 23 cs
  let cs ← expect? (· = ':') cs
  let (_, cs) ← fixedNumber? 2 0 59 cs
  let cs ← expect? (· = ':') cs
  let (_, cs) ← fixedNumber? 2 0 60 cs
  match cs with
  | '.' :: c :: rest =>
    if Numeral.isDigit c then return rest.dropWhile Numeral.isDigit else return cs
  | cs => return cs

def isOffset (cs : List Char) : Bool :=
  match cs with
  | [] => true
  | [c] => c = 'Z' || c = 'z'
  | sign :: rest =>
    (sign = '+' || sign = '-') && ((do
      let (_, rest) ← fixedNumber? 2 0 23 rest
      let rest ← expect? (· = ':') rest
      let (_, rest) ← fixedNumber? 2 0 59 rest
      return rest) = some [])

/-- A date, a time, or both with a letter between them and perhaps an offset. -/
def isDatetime (cs : List Char) : Bool :=
  match afterDate? cs with
  | some [] => true
  | some (c :: rest) => (c = 'T' || c = 't') && (afterTime? rest).any isOffset
  | none => afterTime? cs = some []

def scalar? (cs : List Char) : Option Value :=
  if cs = "true".toList then some (.boolean true)
  else if cs = "false".toList then some (.boolean false)
  else if isDatetime cs then some .datetime
  else (float? cs).or (integer? cs)

/-- The text of a scalar at the front of a text. A date and a time may have one
space between them, which then stands for the letter. -/
def scalarText (cs : List Char) : List Char × List Char :=
  let text := cs.takeWhile isScalarChar
  match afterDate? text, cs.dropWhile isScalarChar with
  | some [], ' ' :: c :: rest =>
    if Numeral.isDigit c then
      (text ++ 'T' :: (c :: rest).takeWhile isScalarChar, (c :: rest).dropWhile isScalarChar)
    else (text, ' ' :: c :: rest)
  | _, after => (text, after)

theorem scalarText_length (cs : List Char) :
    (scalarText cs).1.length + (scalarText cs).2.length = cs.length := by
  have hlen : ∀ xs : List Char,
      (xs.takeWhile isScalarChar).length + (xs.dropWhile isScalarChar).length = xs.length := by
    intro xs
    rw [← List.length_append, List.takeWhile_append_dropWhile]
  have hcs := hlen cs
  simp only [scalarText]
  split
  · rename_i c rest _ ha
    have hr := hlen (c :: rest)
    rw [ha] at hcs
    simp only [List.length_cons] at hcs hr
    split
    · simp only [List.length_append, List.length_cons]
      omega
    · simpa using hcs
  · exact hcs

def scalar : Reader Value where
  run cs :=
    if (scalarText cs).1.isEmpty then none
    else (scalar? (scalarText cs).1).map fun v => (v, (scalarText cs).2)
  shorter {cs rest v} h := by
    have hlen := scalarText_length cs
    split at h
    · simp at h
    · rename_i hne
      obtain ⟨w, -, he⟩ := Option.map_eq_some_iff.mp h
      simp only [Prod.mk.injEq] at he
      have hpos := List.length_pos_iff.mpr (by simpa using hne)
      rw [← he.2]
      omega

end LineShell.Toml
