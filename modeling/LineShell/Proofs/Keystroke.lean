import LineShell.Editor.Key
import LineShell.Proofs.Utf8

/-!
# Keystrokes

What a person does at a keyboard and the bytes that it sends. A keystroke whose
bytes are all there is read as one key and nothing after it is touched; one that
the next keystroke cuts short leaves the first byte of that one where it is.
-/

set_option autoImplicit false

namespace LineShell

inductive Keystroke where
  | char (c : Char)
  /-- The key has two bytes, of which it sends one. -/
  | enter (b : UInt8)
  | erase
  | tab
  | ignored (b : UInt8)
  | sequence (introducer : UInt8) (parameters : Bytes) (final : UInt8)
  | alt (b : UInt8)
  | bareEscape
  | cutSequence (introducer : UInt8) (parameters : Bytes)
  | interrupt
  | endOfInput
  deriving DecidableEq, Repr

namespace Keystroke

def bytes : Keystroke → Bytes
  | char c => Utf8.encode [c]
  | enter b => [b]
  | erase => [0x7f]
  | tab => [0x09]
  | ignored b => [b]
  | sequence introducer parameters final => 0x1b :: introducer :: (parameters ++ [final])
  | alt b => [0x1b, b]
  | bareEscape => [0x1b]
  | cutSequence introducer parameters => 0x1b :: introducer :: parameters
  | interrupt => [0x03]
  | endOfInput => [0x04]

def Introduces (b : UInt8) : Prop := b = 0x5b ∨ b = 0x4f

def Parameter (b : UInt8) : Prop := 0x20 ≤ b ∧ b ≤ 0x3f

def meaningful : Bytes := [0x03, 0x04, 0x09, 0x0a, 0x0d, 0x1b]

/-- What there is to type. TAB is a character when it does not complete. -/
def Admissible (completing : Bool) : Keystroke → Prop
  | char c => 0x20 ≤ c.toNat ∧ c.toNat ≠ 0x7f
  | enter b => b = 0x0d ∨ b = 0x0a
  | tab => completing = false
  | ignored b => b < 0x20 ∧ b ∉ meaningful
  | sequence introducer parameters final =>
    Introduces introducer ∧ (∀ b ∈ parameters, Parameter b) ∧ 0x40 ≤ final ∧ final ≤ 0x7e
  | alt b => 0x20 ≤ b ∧ b ≤ 0x7e ∧ ¬ Introduces b
  | cutSequence introducer parameters => Introduces introducer ∧ ∀ b ∈ parameters, Parameter b
  | erase | bareEscape | interrupt | endOfInput => True

/-- A byte that ends the keystroke before it, if that one waits for more. -/
def CutBy (b : UInt8) : Keystroke → Prop
  | bareEscape => b < 0x20 ∨ b = 0x7f
  | cutSequence _ _ => b < 0x20 ∨ b = 0x7f ∨ 0x80 ≤ b
  | _ => False

def isCut : Keystroke → Bool
  | bareEscape | cutSequence _ _ => true
  | _ => false

def MayPrecede (k : Keystroke) (after : Bytes) : Prop :=
  k.isCut = true → ∃ b ∈ after.head?, CutBy b k

def bytesOf (keys : List Keystroke) : Bytes := keys.flatMap bytes

/-- A row of keystrokes in which each one that has to be cut is cut by the next. -/
def Script (completing : Bool) : List Keystroke → Prop
  | [] => True
  | k :: keys => k.Admissible completing ∧ k.MayPrecede (bytesOf keys) ∧ Script completing keys

instance (b : UInt8) : Decidable (Introduces b) := inferInstanceAs (Decidable (_ ∨ _))

instance (b : UInt8) : Decidable (Parameter b) := inferInstanceAs (Decidable (_ ∧ _))

instance (completing : Bool) (k : Keystroke) : Decidable (k.Admissible completing) :=
  match k with
  | char _ | ignored _ => inferInstanceAs (Decidable (_ ∧ _))
  | enter _ => inferInstanceAs (Decidable (_ ∨ _))
  | tab => inferInstanceAs (Decidable (_ = _))
  | sequence _ parameters _ =>
    have := List.decidableBAll Parameter parameters
    inferInstanceAs (Decidable (_ ∧ _ ∧ _ ∧ _))
  | alt _ => inferInstanceAs (Decidable (_ ∧ _ ∧ _))
  | cutSequence _ parameters =>
    have := List.decidableBAll Parameter parameters
    inferInstanceAs (Decidable (_ ∧ _))
  | erase | bareEscape | interrupt | endOfInput => .isTrue trivial

instance (b : UInt8) (k : Keystroke) : Decidable (CutBy b k) :=
  match k with
  | bareEscape => inferInstanceAs (Decidable (_ ∨ _))
  | cutSequence _ _ => inferInstanceAs (Decidable (_ ∨ _ ∨ _))
  | char _ | enter _ | erase | tab | ignored _ | sequence _ _ _ | alt _ | interrupt
  | endOfInput => .isFalse id

instance (k : Keystroke) (after : Bytes) : Decidable (k.MayPrecede after) :=
  have := Option.decidableExistsMem (p := fun b => CutBy b k) after.head?
  inferInstanceAs (Decidable (_ → _))

instance decideScript (completing : Bool) : (keys : List Keystroke) → Decidable (Script completing keys)
  | [] => .isTrue trivial
  | _ :: keys =>
    have := decideScript completing keys
    inferInstanceAs (Decidable (_ ∧ _ ∧ _))

def key : Keystroke → Key
  | char c => .typed [c]
  | enter _ => .enter
  | erase => .erase
  | tab => .tab
  | interrupt => .abort .interrupt
  | endOfInput => .abort .endOfInput
  | ignored _ | sequence _ _ _ | alt _ | bareEscape | cutSequence _ _ => .idle

def events (bs : Bytes) : List Event := bs.map Event.byte

@[simp] theorem events_nil : events [] = [] := rfl

@[simp] theorem events_cons (b : UInt8) (bs : Bytes) :
    events (b :: bs) = .byte b :: events bs := rfl

@[simp] theorem events_append (as bs : Bytes) : events (as ++ bs) = events as ++ events bs :=
  List.map_append

/-! ## How keystrokes are read -/

theorem nextBytes_events (bs : Bytes) (rest : List Event) :
    Key.nextBytes bs.length (events bs ++ rest) = (.ok bs, rest) := by
  induction bs with
  | nil => rfl
  | cons b bs ih => simp [Key.nextBytes, Key.nextByte, ih]

theorem skipParameters_parameters {bs : Bytes} (h : ∀ b ∈ bs, Parameter b) (rest : List Event) :
    Key.skipParameters (events bs ++ rest) = Key.skipParameters rest := by
  induction bs with
  | nil => rfl
  | cons b bs ih =>
    have hb := h b (by simp)
    simp [Key.skipParameters, hb.1, hb.2, ih fun d hd => h d (by simp [hd])]

theorem skipParameters_final {b : UInt8} (h : 0x40 ≤ b ∧ b ≤ 0x7e) (rest : List Event) :
    Key.skipParameters (.byte b :: rest) = (.ok .idle, rest) := by
  have hb : ¬ b ≤ 0x3f := UInt8.not_le.mpr (UInt8.lt_of_lt_of_le (by decide) h.1)
  simp [Key.skipParameters, h.1, h.2, hb]

theorem skipParameters_cut {b : UInt8} (h : b < 0x20 ∨ b = 0x7f ∨ 0x80 ≤ b)
    (rest : List Event) :
    Key.skipParameters (.byte b :: rest) = (.ok .idle, .byte b :: rest) := by
  have hprinted : ¬ (0x20 ≤ b ∧ b ≤ 0x7e) := by
    rintro ⟨hlow, hhigh⟩
    rcases h with hcontrol | rfl | hlead
    · exact UInt8.not_le.mpr hcontrol hlow
    · exact absurd hhigh (by decide)
    · exact absurd (UInt8.le_trans hlead hhigh) (by decide)
  have hparameter : ¬ (0x20 ≤ b ∧ b ≤ 0x3f) := by
    intro hb
    exact hprinted ⟨hb.1, UInt8.le_trans hb.2 (by decide)⟩
  have hfinal : ¬ (0x40 ≤ b ∧ b ≤ 0x7e) := by
    intro hb
    exact hprinted ⟨UInt8.le_trans (by decide) hb.1, hb.2⟩
  simp [Key.skipParameters, hparameter, hfinal]

theorem skipEscaped_sequence {b : UInt8} (h : Introduces b) (rest : List Event) :
    Key.skipEscaped (.byte b :: rest) = Key.skipParameters rest := by
  rcases h with rfl | rfl <;> rfl

theorem skipEscaped_single {b : UInt8} (hcontrol : 0x20 ≤ b) (hdelete : b ≠ 0x7f)
    (hintroducer : ¬ Introduces b) (rest : List Event) :
    Key.skipEscaped (.byte b :: rest) = (.ok .idle, rest) := by
  have hprinted : ¬ b < 0x20 := UInt8.not_lt.mpr hcontrol
  simp only [Introduces, not_or] at hintroducer
  simp [Key.skipEscaped, Key.nextByte, hprinted, hdelete, hintroducer]

theorem skipEscaped_alt {b : UInt8} (h : 0x20 ≤ b ∧ b ≤ 0x7e ∧ ¬ Introduces b)
    (rest : List Event) : Key.skipEscaped (.byte b :: rest) = (.ok .idle, rest) := by
  obtain ⟨hlow, hhigh, hintroducer⟩ := h
  refine skipEscaped_single hlow ?_ hintroducer rest
  rintro rfl
  exact absurd hhigh (by decide)

theorem skipEscaped_cut {b : UInt8} (h : b < 0x20 ∨ b = 0x7f) (rest : List Event) :
    Key.skipEscaped (.byte b :: rest) = (.ok .idle, .byte b :: rest) := by
  simp [Key.skipEscaped, Key.nextByte, h]

theorem ofLead_text {b : UInt8} (hcontrol : 0x20 ≤ b) (hdelete : b ≠ 0x7f)
    (events : List Event) :
    Key.ofLead b events =
      match Key.nextBytes (Utf8.announced b) events with
      | (.error e, rest) => (.error e, rest)
      | (.ok bs, rest) => (.ok (.typed (Utf8.decodeLossy (b :: bs))), rest) := by
  have hne : ∀ d : UInt8, d < 0x20 → b ≠ d := by
    rintro d hd rfl
    exact absurd hcontrol (UInt8.not_le.mpr hd)
  have henter : ¬(decide (b = Key.carriageReturn) || decide (b = Key.lineFeed)) = true := by
    simp [hne Key.carriageReturn (by decide), hne Key.lineFeed (by decide)]
  calc
    Key.ofLead b events = _ := if_neg (hne Key.ctrlC (by decide))
    _ = _ := if_neg (hne Key.ctrlD (by decide))
    _ = _ := if_neg henter
    _ = _ := if_neg hdelete
    _ = _ := if_neg (hne Key.horizontalTab (by decide))
    _ = _ := if_neg (hne Key.escape (by decide))
    _ = _ := if_neg (UInt8.not_lt.mpr hcontrol)

theorem next_typed {b : UInt8} {bs : Bytes} (hcontrol : 0x20 ≤ b) (hdelete : b ≠ 0x7f)
    (hlength : Utf8.announced b = bs.length) (rest : List Event) :
    Key.next (events (b :: bs) ++ rest) = (.ok (.typed (Utf8.decodeLossy (b :: bs))), rest) := by
  rw [events_cons, List.cons_append, Key.next, Key.nextByte]
  show Key.ofLead b (events bs ++ rest) = _
  rw [ofLead_text hcontrol hdelete, hlength, nextBytes_events]

theorem next_char {c : Char} (h : 0x20 ≤ c.toNat ∧ c.toNat ≠ 0x7f) (rest : List Event) :
    Key.next (events (Utf8.encode [c]) ++ rest) = (.ok (.typed [c]), rest) := by
  obtain ⟨b, bs, hbytes, hlength, hb⟩ := Utf8.encodeChar_lead c
  have hencode : Utf8.encode [c] = b :: bs := by simp [Utf8.encode, hbytes]
  have hcontrol : 0x20 ≤ b := UInt8.le_iff_toNat_le.mpr (by simp; omega)
  have hdelete : b ≠ 0x7f := by
    rintro rfl
    simp at hb
    omega
  have hnext := next_typed hcontrol hdelete hlength rest
  rwa [← hencode, Utf8.decodeLossy_encode] at hnext

theorem next_ignored {b : UInt8} (h : b < 0x20 ∧ b ∉ meaningful) (rest : List Event) :
    Key.next (.byte b :: rest) = (.ok .idle, rest) := by
  obtain ⟨hcontrol, hmeaning⟩ := h
  have hdelete : b ≠ 0x7f := by
    rintro rfl
    exact absurd hcontrol (by decide)
  simp only [meaningful, List.mem_cons, List.not_mem_nil, or_false, not_or] at hmeaning
  obtain ⟨hctrlC, hctrlD, htab, hlf, hcr, hescape⟩ := hmeaning
  simp only [Key.next, Key.nextByte, Key.ofLead]
  simp [hctrlC, hctrlD, htab, hlf, hcr, hescape, hdelete, hcontrol]

theorem next_escape (rest : List Event) :
    Key.next (.byte 0x1b :: rest) = Key.skipEscaped rest := rfl

/-- A keystroke is read as its key, and what follows it stays as it is. -/
theorem next_keystroke {completing : Bool} {k : Keystroke} {after : Bytes}
    (hk : k.Admissible completing) (hafter : k.MayPrecede after) (rest : List Event) :
    Key.next (events k.bytes ++ (events after ++ rest)) = (.ok k.key, events after ++ rest) := by
  cases k with
  | char c => exact next_char hk _
  | enter b => rcases hk with rfl | rfl <;> rfl
  | erase => rfl
  | tab => rfl
  | ignored b => exact next_ignored hk _
  | sequence introducer parameters final =>
    obtain ⟨hintroducer, hparameters, hfinal⟩ := hk
    simp only [bytes, events_cons, events_append, events_nil, List.cons_append, List.append_assoc,
      List.nil_append]
    rw [next_escape, skipEscaped_sequence hintroducer, skipParameters_parameters hparameters,
      skipParameters_final hfinal]
    rfl
  | alt b => exact skipEscaped_alt hk _
  | bareEscape =>
    obtain ⟨b, hb, hcut⟩ := hafter rfl
    obtain ⟨tail, rfl⟩ := List.head?_eq_some_iff.mp hb
    exact skipEscaped_cut hcut _
  | cutSequence introducer parameters =>
    obtain ⟨b, hb, hcut⟩ := hafter rfl
    obtain ⟨tail, rfl⟩ := List.head?_eq_some_iff.mp hb
    simp only [bytes, events_cons, List.cons_append]
    rw [next_escape, skipEscaped_sequence hk.1, skipParameters_parameters hk.2,
      skipParameters_cut hcut]
    rfl
  | interrupt => rfl
  | endOfInput => rfl

theorem bytes_ne_nil (k : Keystroke) : k.bytes ≠ [] := by
  cases k with
  | char c =>
    obtain ⟨b, bs, hbytes, -⟩ := Utf8.encodeChar_lead c
    simp [bytes, Utf8.encode, hbytes]
  | _ => simp [bytes]

end Keystroke

end LineShell
