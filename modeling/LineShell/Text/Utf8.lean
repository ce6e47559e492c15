/-!
# UTF-8

Texts as bytes. Reading cuts the bytes into characters and maximal invalid
subparts: a sequence that cannot be continued ends before the byte that does
not fit, and that byte starts afresh.
-/

set_option autoImplicit false

namespace LineShell

abbrev Bytes := List UInt8

namespace Utf8

def encode (cs : List Char) : Bytes := cs.flatMap String.utf8EncodeChar

theorem encode_append (a b : List Char) : encode (a ++ b) = encode a ++ encode b :=
  List.flatMap_append

def ofString (s : String) : Bytes := encode s.toList

theorem ofString_append (a b : String) : ofString (a ++ b) = ofString a ++ ofString b := by
  rw [ofString, String.toList_append, encode_append]
  rfl

theorem ofString_line_ne_nil (s : String) : ofString (s ++ "\n") ≠ [] := by
  have hend : ofString "\n" ≠ [] := by decide
  simp [ofString_append, hend]

/-- How many bytes the bit pattern of a leading byte announces after it. A byte
that leads nothing announces none. -/
def announced (b : UInt8) : Nat :=
  if 0xc0 ≤ b && b ≤ 0xdf then 1
  else if 0xe0 ≤ b && b ≤ 0xef then 2
  else if 0xf0 ≤ b && b ≤ 0xf7 then 3
  else 0

def isContinuation (b : UInt8) : Bool := 0x80 ≤ b && b ≤ 0xbf

/-- A sequence under way: the bits so far, the bytes still missing, and the
range of the next one. -/
structure Sequence where
  value : Nat
  missing : Nat
  least : UInt8
  greatest : UInt8
  deriving DecidableEq, Repr

inductive Start where
  | char (c : Char)
  | sequence (s : Sequence)
  | invalid
  deriving DecidableEq, Repr

/-- Overlong forms, surrogates and values beyond the last code point are ruled
out by the range of the second byte. -/
def start (b : UInt8) : Start :=
  let n := b.toNat
  if n < 0x80 then .char (Char.ofNat n)
  else if n < 0xc2 then .invalid
  else if n < 0xe0 then .sequence ⟨n % 0x20, 1, 0x80, 0xbf⟩
  else if n = 0xe0 then .sequence ⟨n % 0x10, 2, 0xa0, 0xbf⟩
  else if n = 0xed then .sequence ⟨n % 0x10, 2, 0x80, 0x9f⟩
  else if n < 0xf0 then .sequence ⟨n % 0x10, 2, 0x80, 0xbf⟩
  else if n = 0xf0 then .sequence ⟨n % 0x08, 3, 0x90, 0xbf⟩
  else if n < 0xf4 then .sequence ⟨n % 0x08, 3, 0x80, 0xbf⟩
  else if n = 0xf4 then .sequence ⟨n % 0x08, 3, 0x80, 0x8f⟩
  else .invalid

def Sequence.extend (s : Sequence) (b : UInt8) : Sequence :=
  ⟨s.value * 0x40 + b.toNat % 0x40, s.missing - 1, 0x80, 0xbf⟩

/-- The characters of a byte string; `none` stands for an invalid subpart. -/
def scan : Option Sequence → Bytes → List (Option Char)
  | none, [] => []
  | some _, [] => [none]
  | none, b :: rest =>
    match start b with
    | .char c => some c :: scan none rest
    | .sequence p => scan (some p) rest
    | .invalid => none :: scan none rest
  | some p, b :: rest =>
    if p.least ≤ b && b ≤ p.greatest then
      if p.missing ≤ 1 then some (Char.ofNat (p.extend b).value) :: scan none rest
      else scan (some (p.extend b)) rest
    else
      none :: match start b with
        | .char c => some c :: scan none rest
        | .sequence q => scan (some q) rest
        | .invalid => none :: scan none rest

def replacement : Char := '\ufffd'

def decodeLossy (bs : Bytes) : List Char :=
  (scan none bs).map (·.getD replacement)

def decode? (bs : Bytes) : Option (List Char) :=
  (scan none bs).mapM id

end Utf8

end LineShell
