import LineShell.OsError
import LineShell.Text.Utf8

/-!
# Keys

What comes from a terminal is a stream of events, mostly bytes. They are
grouped into keys: characters, control keys and escape sequences. A byte that
cuts an escape sequence short goes back to the stream.
-/

set_option autoImplicit false

namespace LineShell

/-- One attempt to read a byte. Interrupted attempts are made again. -/
inductive Event where
  | byte (b : UInt8)
  | interrupted
  | failed (e : OsError)
  deriving DecidableEq, Repr

inductive Abort where
  | interrupt
  | endOfInput
  deriving DecidableEq, Repr

inductive ReadError where
  | abort (reason : Abort)
  | io (cause : OsError)
  deriving DecidableEq, Repr

def Abort.name : Abort → String
  | interrupt => "Interrupt"
  | endOfInput => "EndOfInput"

def ReadError.message : ReadError → String
  | abort reason => s!"input aborted ({reason.name})"
  | io cause => s!"read error: {cause.message}"

inductive Key where
  /-- The text of one leading byte and the bytes that it announces. -/
  | typed (text : List Char)
  | enter
  | erase
  | tab
  | abort (reason : Abort)
  /-- An escape sequence or a control byte without a meaning. -/
  | idle
  deriving DecidableEq, Repr

namespace Key

abbrev ctrlC : UInt8 := 0x03
abbrev ctrlD : UInt8 := 0x04
abbrev horizontalTab : UInt8 := 0x09
abbrev lineFeed : UInt8 := 0x0a
abbrev carriageReturn : UInt8 := 0x0d
abbrev escape : UInt8 := 0x1b
abbrev firstPrintable : UInt8 := 0x20
abbrev delete : UInt8 := 0x7f

def nextByte : List Event → Except ReadError UInt8 × List Event
  | [] => (.error (.abort .endOfInput), [])
  | .byte b :: rest => (.ok b, rest)
  | .interrupted :: rest => nextByte rest
  | .failed e :: rest => (.error (.io e), rest)

def nextBytes : Nat → List Event → Except ReadError Bytes × List Event
  | 0, events => (.ok [], events)
  | n + 1, events =>
    match nextByte events with
    | (.error e, rest) => (.error e, rest)
    | (.ok b, rest) =>
      match nextBytes n rest with
      | (.error e, rest) => (.error e, rest)
      | (.ok bs, rest) => (.ok (b :: bs), rest)

/-- The rest of a sequence after its introducer: parameter and intermediate
bytes, then a final byte. Any other byte ends it early and stays. -/
def skipParameters : List Event → Except ReadError Key × List Event
  | [] => (.error (.abort .endOfInput), [])
  | .interrupted :: rest => skipParameters rest
  | .failed e :: rest => (.error (.io e), rest)
  | .byte b :: rest =>
    if 0x20 ≤ b && b ≤ 0x3f then skipParameters rest
    else if 0x40 ≤ b && b ≤ 0x7e then (.ok .idle, rest)
    else (.ok .idle, .byte b :: rest)

/-- What follows an escape byte: a sequence, or a single key, which a control
byte cannot be. -/
def skipEscaped (events : List Event) : Except ReadError Key × List Event :=
  match nextByte events with
  | (.error e, rest) => (.error e, rest)
  | (.ok b, rest) =>
    if b < firstPrintable || b = delete then (.ok .idle, .byte b :: rest)
    else if b = 0x5b || b = 0x4f then skipParameters rest
    else (.ok .idle, rest)

def ofLead (b : UInt8) (events : List Event) : Except ReadError Key × List Event :=
  if b = ctrlC then (.ok (.abort .interrupt), events)
  else if b = ctrlD then (.ok (.abort .endOfInput), events)
  else if b = carriageReturn || b = lineFeed then (.ok .enter, events)
  else if b = delete then (.ok .erase, events)
  else if b = horizontalTab then (.ok .tab, events)
  else if b = escape then skipEscaped events
  else if b < firstPrintable then (.ok .idle, events)
  else
    match nextBytes (Utf8.announced b) events with
    | (.error e, rest) => (.error e, rest)
    | (.ok bs, rest) => (.ok (.typed (Utf8.decodeLossy (b :: bs))), rest)

def next (events : List Event) : Except ReadError Key × List Event :=
  match nextByte events with
  | (.error e, rest) => (.error e, rest)
  | (.ok b, rest) => ofLead b rest

theorem nextByte_length (events : List Event) :
    (nextByte events).2.length ≤ events.length - 1 := by
  fun_induction nextByte events <;> simp_all
  omega

theorem nextBytes_length (n : Nat) (events : List Event) :
    (nextBytes n events).2.length ≤ events.length := by
  induction n generalizing events with
  | zero => simp [nextBytes]
  | succ n ih =>
    have h := nextByte_length events
    simp only [nextBytes]
    split
    · simp_all; omega
    · rename_i b rest hb
      have hn := ih rest
      split <;> simp_all <;> omega

theorem skipParameters_length (events : List Event) :
    (skipParameters events).2.length ≤ events.length := by
  fun_induction skipParameters events <;> simp_all <;> omega

/-- A byte can go back to the stream only after the escape byte before it is
gone. -/
theorem skipEscaped_length (events : List Event) :
    (skipEscaped events).2.length ≤ events.length := by
  have h := nextByte_length events
  simp only [skipEscaped]
  split
  · simp_all; omega
  · rename_i b rest hb
    have hs := skipParameters_length rest
    have hne : events ≠ [] := by
      rintro rfl
      simp [nextByte] at hb
    have hpos := List.length_pos_iff.mpr hne
    simp only [hb] at h
    split
    · simp; omega
    · split
      · omega
      · simp; omega

theorem ofLead_length (b : UInt8) (events : List Event) :
    (ofLead b events).2.length ≤ events.length := by
  have hs := skipEscaped_length events
  have hn := nextBytes_length (Utf8.announced b) events
  simp only [ofLead]
  split; · simp
  split; · simp
  split; · simp
  split; · simp
  split; · simp
  split; · exact hs
  split; · simp
  split <;> simp_all

theorem next_length {events : List Event} (h : events ≠ []) :
    (next events).2.length < events.length := by
  have hb := nextByte_length events
  have hpos := List.length_pos_iff.mpr h
  simp only [next]
  split
  · simp_all; omega
  · rename_i b rest hr
    have ho := ofLead_length b rest
    simp only [hr] at hb
    omega

end Key

end LineShell
