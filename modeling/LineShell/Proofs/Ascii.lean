import LineShell.Text.Utf8

/-!
# ASCII in any bytes

However bytes are cut into characters and invalid parts, those of ASCII stand
for themselves: a character of ASCII is read exactly where its byte is, since
nothing longer is ever read as one.
-/

set_option autoImplicit false

namespace LineShell.Utf8

/-- A sequence under way that can only end beyond ASCII, at a code point. -/
structure Sequence.Sound (p : Sequence) : Prop where
  least : 0x80 ≤ p.least.toNat
  greatest : p.greatest.toNat ≤ 0xbf
  value : match p.missing with
    | 0 | 1 => 2 ≤ p.value ∧ p.value < 0x4400 ∧ (p.value < 0x360 ∨ 0x380 ≤ p.value)
    | 2 => p.value < 0x110 ∧ (p.value = 0 → 0xa0 ≤ p.least.toNat) ∧
      (p.value = 0xd → p.greatest.toNat ≤ 0x9f)
    | 3 => p.value ≤ 4 ∧ (p.value = 0 → 0x90 ≤ p.least.toNat) ∧
      (p.value = 4 → p.greatest.toNat ≤ 0x8f)
    | _ => False

theorem start_sound {b : UInt8} {p : Sequence} (h : start b = .sequence p) : p.Sound := by
  have hb : b.toNat < 0x100 := b.toNat_lt
  unfold start at h
  dsimp only at h
  split at h
  · cases h
  split at h
  · cases h
  split at h
  · cases h
    constructor <;> simp; omega
  split at h
  · cases h
    constructor <;> simp; omega
  split at h
  · cases h
    constructor <;> simp; omega
  split at h
  · cases h
    constructor <;> simp; omega
  split at h
  · cases h
    constructor <;> simp; omega
  split at h
  · cases h
    constructor <;> simp; omega
  split at h
  · cases h
    constructor <;> simp; omega
  · cases h

theorem start_ascii {b : UInt8} (h : b.toNat < 0x80) : start b = .char (Char.ofNat b.toNat) :=
  if_pos h

theorem start_char {b : UInt8} {c : Char} (h : start b = .char c) :
    b.toNat < 0x80 ∧ c = Char.ofNat b.toNat := by
  by_cases hb : b.toNat < 0x80
  · rw [start_ascii hb] at h
    cases h
    exact ⟨hb, rfl⟩
  · unfold start at h
    dsimp only at h
    rw [if_neg hb] at h
    repeat' split at h
    all_goals cases h

theorem toNat_ofNat_valid {n : Nat} (h : n.isValidChar) : (Char.ofNat n).toNat = n := by
  rw [Char.ofNat, dif_pos h]
  rfl

section Extension

variable {p : Sequence} {b : UInt8}

theorem Sequence.Sound.extend (hp : p.Sound) (hleast : p.least ≤ b) (hgreatest : b ≤ p.greatest)
    (hmissing : ¬ p.missing ≤ 1) : (p.extend b).Sound := by
  obtain ⟨hlow, hhigh, hvalue⟩ := hp
  obtain ⟨value, missing, least, greatest⟩ := p
  rw [UInt8.le_iff_toNat_le] at hleast hgreatest
  match missing with
  | 0 => exact absurd (Nat.zero_le 1) hmissing
  | 1 => exact absurd (Nat.le_refl 1) hmissing
  | 2 =>
    constructor <;> simp_all [Sequence.extend]
    omega
  | 3 =>
    constructor <;> simp_all [Sequence.extend]
    omega
  | _ + 4 => exact hvalue.elim

theorem Sequence.Sound.last (hp : p.Sound) (hleast : p.least ≤ b) (hgreatest : b ≤ p.greatest)
    (hmissing : p.missing ≤ 1) : 0x80 ≤ (Char.ofNat (p.extend b).value).toNat := by
  obtain ⟨hlow, hhigh, hvalue⟩ := hp
  obtain ⟨value, missing, least, greatest⟩ := p
  have hrange : 2 ≤ value ∧ value < 0x4400 ∧ (value < 0x360 ∨ 0x380 ≤ value) := by
    rcases Nat.le_one_iff_eq_zero_or_eq_one.mp hmissing with rfl | rfl
    · exact hvalue
    · exact hvalue
  have hvalid : (value * 0x40 + b.toNat % 0x40).isValidChar := by
    simp only [Nat.isValidChar]
    omega
  rw [Sequence.extend, toNat_ofNat_valid hvalid]
  show 0x80 ≤ value * 0x40 + b.toNat % 0x40
  omega

theorem Sequence.Sound.beyond (hp : p.Sound) (hleast : p.least ≤ b) : 0x80 ≤ b.toNat :=
  Nat.le_trans hp.least (UInt8.le_iff_toNat_le.mp hleast)

end Extension

theorem announced_high {b : UInt8} (h : announced b ≠ 0) : 0xc0 ≤ b := by
  apply UInt8.not_lt.mp
  intro hlow
  have hbelow : ∀ d : UInt8, 0xc0 ≤ d → ¬ d ≤ b := by
    intro d hd
    exact UInt8.not_le.mpr (UInt8.lt_of_lt_of_le hlow hd)
  simp [announced, hbelow] at h

variable {c : Char}

theorem ofNat_byte_eq_iff (hc : c.toNat < 0x80) {b : UInt8} (hb : b.toNat < 0x80) :
    c = Char.ofNat b.toNat ↔ UInt8.ofNat c.toNat = b := by
  have hvalid : b.toNat.isValidChar := by
    simp only [Nat.isValidChar]
    omega
  constructor
  · rintro rfl
    rw [toNat_ofNat_valid hvalid, UInt8.ofNat_toNat]
  · rintro rfl
    have hbyte : (UInt8.ofNat c.toNat).toNat = c.toNat :=
      UInt8.toNat_ofNat_of_lt' (by simp [UInt8.size]; omega)
    rw [hbyte, Char.ofNat_toNat]

theorem ne_of_beyond (hc : c.toNat < 0x80) {b : UInt8} (hb : 0x80 ≤ b.toNat) :
    UInt8.ofNat c.toNat ≠ b := by
  rintro rfl
  rw [UInt8.toNat_ofNat_of_lt' (by simp [UInt8.size]; omega)] at hb
  omega

theorem start_beyond {b : UInt8} (h : ∀ d, start b ≠ .char d) : 0x80 ≤ b.toNat :=
  Nat.le_of_not_lt fun hb => h _ (start_ascii hb)

/-- A character of ASCII is read where its byte is, and nowhere else. -/
theorem mem_scan (hc : c.toNat < 0x80) {state : Option Sequence}
    (hstate : ∀ p ∈ state, p.Sound) (bs : Bytes) :
    some c ∈ scan state bs ↔ UInt8.ofNat c.toNat ∈ bs := by
  induction bs generalizing state with
  | nil => cases state <;> simp [scan]
  | cons b rest ih =>
    have hnone : some c ∈ scan none rest ↔ UInt8.ofNat c.toNat ∈ rest := ih (by simp)
    -- a byte that starts something, also after one that it broke off
    have hstart : some c ∈ scan none (b :: rest) ↔ UInt8.ofNat c.toNat ∈ b :: rest := by
      cases hb : start b with
      | char d =>
        obtain ⟨hlow, rfl⟩ := start_char hb
        simp [scan, hb, hnone, ofNat_byte_eq_iff hc hlow]
      | sequence p =>
        have hp : ∀ q ∈ some p, q.Sound := by simpa using start_sound hb
        have hlow : 0x80 ≤ b.toNat := start_beyond (by simp [hb])
        simp [scan, hb, ih hp, ne_of_beyond hc hlow]
      | invalid =>
        have hlow : 0x80 ≤ b.toNat := start_beyond (by simp [hb])
        simp [scan, hb, hnone, ne_of_beyond hc hlow]
    cases state with
    | none => exact hstart
    | some p =>
      have hp : p.Sound := hstate p rfl
      by_cases hrange : p.least ≤ b ∧ b ≤ p.greatest
      · have hne := ne_of_beyond hc (hp.beyond hrange.1)
        by_cases hmissing : p.missing ≤ 1
        · have hlast := hp.last hrange.1 hrange.2 hmissing
          have hother : c ≠ Char.ofNat (p.extend b).value := by
            rintro rfl
            exact absurd hc (Nat.not_lt.mpr hlast)
          simp [scan, hrange, hmissing, hnone, hne, hother]
        · have hnext : ∀ q ∈ some (p.extend b), q.Sound := by
            simpa using hp.extend hrange.1 hrange.2 hmissing
          simp [scan, hrange, hmissing, ih hnext, hne]
      · have hbroken : scan (some p) (b :: rest) = none :: scan none (b :: rest) := by
          simp [scan, hrange]
        simpa [hbroken] using hstart

theorem mem_decodeLossy (hc : c.toNat < 0x80) (bs : Bytes) :
    c ∈ decodeLossy bs ↔ UInt8.ofNat c.toNat ∈ bs := by
  have hreplacement : replacement ≠ c := by
    rintro rfl
    exact absurd hc (by decide)
  have hscan : some c ∈ scan none bs ↔ UInt8.ofNat c.toNat ∈ bs := mem_scan hc (by simp) bs
  rw [← hscan, decodeLossy, List.mem_map]
  constructor
  · rintro ⟨d | d, hd, hdc⟩
    · exact absurd hdc hreplacement
    · rwa [← show d = c from hdc]
  · intro h
    exact ⟨some c, h, rfl⟩

end LineShell.Utf8
