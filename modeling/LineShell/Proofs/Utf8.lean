import LineShell.Text.Utf8

/-!
# Valid UTF-8

The bytes of a character are read back as that character, whatever follows, and
their first byte announces how many more there are.
-/

set_option autoImplicit false

namespace LineShell.Utf8

/-! ## Leading bytes -/

theorem toNat_ofNat {n : Nat} (h : n < 0x100) : (UInt8.ofNat n).toNat = n :=
  UInt8.toNat_ofNat_of_lt' h

theorem start_one : ∀ n < 0x80, start (UInt8.ofNat n) = .char (Char.ofNat n) := by
  intro n hn
  have hbyte : (UInt8.ofNat n).toNat = n := toNat_ofNat (by omega)
  rw [start, hbyte]
  exact if_pos hn

theorem start_two : ∀ n < 0x20, 2 ≤ n →
    start (UInt8.ofNat (n + 0xc0)) = .sequence ⟨n, 1, 0x80, 0xbf⟩ := by
  intro n hn hlow
  have hbyte : (UInt8.ofNat (n + 0xc0)).toNat = n + 0xc0 := toNat_ofNat (by omega)
  have hvalue : (n + 0xc0) % 0x20 = n := by omega
  rw [start, hbyte]
  rw [if_neg (by omega), if_neg (by omega), if_pos (by omega), hvalue]

theorem start_three : ∀ n < 0x10, start (UInt8.ofNat (n + 0xe0)) =
    .sequence ⟨n, 2, if n = 0 then 0xa0 else 0x80, if n = 0xd then 0x9f else 0xbf⟩ := by
  intro n hn
  have hbyte : (UInt8.ofNat (n + 0xe0)).toNat = n + 0xe0 := toNat_ofNat (by omega)
  have hvalue : (n + 0xe0) % 0x10 = n := by omega
  rw [start, hbyte]
  rw [if_neg (by omega), if_neg (by omega), if_neg (by omega), hvalue]
  by_cases hzero : n = 0
  · subst hzero
    rfl
  by_cases hsurrogate : n = 0xd
  · subst hsurrogate
    rfl
  · rw [if_neg (by omega), if_neg (by omega), if_pos (by omega), if_neg hzero,
      if_neg hsurrogate]

theorem start_four : ∀ n < 5, start (UInt8.ofNat (n + 0xf0)) =
    .sequence ⟨n, 3, if n = 0 then 0x90 else 0x80, if n = 4 then 0x8f else 0xbf⟩ := by
  decide

theorem announced_one : ∀ n < 0x80, announced (UInt8.ofNat n) = 0 := by
  intro n hn
  have hbyte : (UInt8.ofNat n).toNat = n := toNat_ofNat (by omega)
  have hlow : ∀ m, 0x80 ≤ m → ¬ m ≤ n := by
    intro m hm
    omega
  simp [announced, UInt8.le_iff_toNat_le, hbyte, hlow]

theorem announced_two : ∀ n < 0x20, announced (UInt8.ofNat (n + 0xc0)) = 1 := by
  decide

theorem announced_three : ∀ n < 0x10, announced (UInt8.ofNat (n + 0xe0)) = 2 := by
  decide

theorem announced_four : ∀ n < 0x08, announced (UInt8.ofNat (n + 0xf0)) = 3 := by
  decide

/-! ## Continuation bytes -/

theorem announced_continuation {b : UInt8} (h : isContinuation b = true) : announced b = 0 := by
  simp only [isContinuation, Bool.and_eq_true, decide_eq_true_eq] at h
  have hbelow : ∀ d : UInt8, 0xc0 ≤ d → ¬ d ≤ b := by
    intro d hd
    exact UInt8.not_le.mpr (UInt8.lt_of_le_of_lt h.2 (UInt8.lt_of_lt_of_le (by decide) hd))
  simp [announced, hbelow]

theorem continuation_toNat {n : Nat} (h : n < 0x40) :
    (UInt8.ofNat (n + 0x80)).toNat = n + 0x80 :=
  toNat_ofNat (by omega)

theorem scan_start_char {b : UInt8} {c : Char} {rest : Bytes} (h : start b = .char c) :
    scan none (b :: rest) = some c :: scan none rest := by
  simp [scan, h]

theorem scan_start_sequence {b : UInt8} {p : Sequence} {rest : Bytes}
    (h : start b = .sequence p) : scan none (b :: rest) = scan (some p) rest := by
  simp [scan, h]

section Continuation

variable {value missing n : Nat} {least greatest b : UInt8} {rest : Bytes}

theorem scan_middle (hn : n < 0x40) (hb : b.toNat = n + 0x80)
    (hleast : least.toNat ≤ n + 0x80) (hgreatest : n + 0x80 ≤ greatest.toNat) :
    scan (some ⟨value, missing + 2, least, greatest⟩) (b :: rest) =
      scan (some ⟨value * 0x40 + n, missing + 1, 0x80, 0xbf⟩) rest := by
  have hbits : (n + 0x80) % 0x40 = n := by omega
  simp [scan, Sequence.extend, UInt8.le_iff_toNat_le, hb, hleast, hgreatest, hbits]

theorem scan_last (hn : n < 0x40) (hb : b.toNat = n + 0x80)
    (hleast : least.toNat ≤ n + 0x80) (hgreatest : n + 0x80 ≤ greatest.toNat) :
    scan (some ⟨value, 1, least, greatest⟩) (b :: rest) =
      some (Char.ofNat (value * 0x40 + n)) :: scan none rest := by
  have hbits : (n + 0x80) % 0x40 = n := by omega
  simp [scan, Sequence.extend, UInt8.le_iff_toNat_le, hb, hleast, hgreatest, hbits]

end Continuation

/-! ## Characters -/

theorem scalar_range (c : Char) :
    c.toNat < 0xd800 ∨ (0xdfff < c.toNat ∧ c.toNat < 0x110000) := c.valid

theorem scan_encodeChar (c : Char) (rest : Bytes) :
    scan none (String.utf8EncodeChar c ++ rest) = some c :: scan none rest := by
  have hrange := scalar_range c
  have hc := Char.ofNat_toNat c
  simp only [String.utf8EncodeChar, show c.val.toNat = c.toNat from rfl]
  generalize c.toNat = n at *
  have hmod : ∀ m, m % 0x40 < 0x40 := fun m => Nat.mod_lt m (by decide)
  have hbyte : ∀ m, (UInt8.ofNat (m % 0x40 + 0x80)).toNat = m % 0x40 + 0x80 :=
    fun m => continuation_toNat (hmod m)
  subst hc
  split
  · exact scan_start_char (start_one n (by omega))
  split
  · rw [List.cons_append, List.cons_append, List.nil_append,
      scan_start_sequence (start_two _ (by omega) (by omega)),
      scan_last (hmod n) (hbyte n) (by simp) (by simp; omega)]
    congr 3
    omega
  split
  · rw [List.cons_append, List.cons_append, List.cons_append, List.nil_append,
      scan_start_sequence (start_three _ (by omega)),
      scan_middle (hmod _) (hbyte _) (by split <;> simp; omega) (by split <;> simp <;> omega),
      scan_last (hmod n) (hbyte n) (by simp) (by simp; omega)]
    congr 3
    omega
  · rw [List.cons_append, List.cons_append, List.cons_append, List.cons_append, List.nil_append,
      scan_start_sequence (start_four _ (by omega)),
      scan_middle (hmod _) (hbyte _) (by split <;> simp; omega) (by split <;> simp <;> omega),
      scan_middle (hmod _) (hbyte _) (by simp) (by simp; omega),
      scan_last (hmod n) (hbyte n) (by simp) (by simp; omega)]
    congr 3
    omega

theorem encode_flatten (pieces : List (List Char)) :
    (pieces.map encode).flatten = encode pieces.flatten := by
  induction pieces with
  | nil => rfl
  | cons piece pieces ih =>
    rw [List.map_cons, List.flatten_cons, ih, List.flatten_cons, encode_append]

theorem scan_encode (cs : List Char) : scan none (encode cs) = cs.map some := by
  induction cs with
  | nil => rfl
  | cons c cs ih => rw [encode, List.flatMap_cons, scan_encodeChar, ← encode, ih, List.map_cons]

theorem decodeLossy_encode (cs : List Char) : decodeLossy (encode cs) = cs := by
  rw [decodeLossy, scan_encode, List.map_map]
  exact List.map_id cs

theorem encodeChar_lead (c : Char) :
    ∃ b bs, String.utf8EncodeChar c = b :: bs ∧ announced b = bs.length ∧
      (b.toNat = c.toNat ∨ 0xc0 ≤ b.toNat) := by
  have hrange := scalar_range c
  simp only [String.utf8EncodeChar, show c.val.toNat = c.toNat from rfl]
  generalize c.toNat = n at *
  split
  · refine ⟨_, _, rfl, announced_one n (by omega), .inl ?_⟩
    exact UInt8.toNat_ofNat_of_lt' (by simp [UInt8.size]; omega)
  -- a longer character begins with its high bits above a fixed pattern
  have high : ∀ m, 0xc0 ≤ m → m < 0x100 → 0xc0 ≤ (UInt8.ofNat m).toNat := by
    intro m hlow hhigh
    rw [UInt8.toNat_ofNat_of_lt' (by simpa [UInt8.size] using hhigh)]
    exact hlow
  split
  · exact ⟨_, _, rfl, announced_two _ (by omega), .inr (high _ (by omega) (by omega))⟩
  split
  · exact ⟨_, _, rfl, announced_three _ (by omega), .inr (high _ (by omega) (by omega))⟩
  · exact ⟨_, _, rfl, announced_four _ (by omega), .inr (high _ (by omega) (by omega))⟩

theorem encodeChar_tail (c : Char) :
    ∀ b ∈ (String.utf8EncodeChar c).tail, isContinuation b = true := by
  have hbyte : ∀ m, isContinuation (UInt8.ofNat (m % 0x40 + 0x80)) = true := by
    intro m
    have hm : m % 0x40 < 0x40 := Nat.mod_lt m (by decide)
    simp only [isContinuation, UInt8.le_iff_toNat_le, continuation_toNat hm, Bool.and_eq_true,
      decide_eq_true_eq]
    simp
    omega
  unfold String.utf8EncodeChar
  dsimp only
  intro b hb
  split at hb
  · cases hb
  split at hb
  · rw [List.mem_singleton.mp hb]
    exact hbyte _
  split at hb
  all_goals
    simp only [List.tail_cons, List.mem_cons, List.not_mem_nil, or_false] at hb
    rcases hb with rfl | rfl | rfl
  all_goals exact hbyte _

/-- In valid UTF-8 a leading byte announces the continuation of its character. -/
theorem encode_announced {cs : List Char} {lead : UInt8} {bs : Bytes}
    (h : lead :: bs <:+: encode cs) (hlength : bs.length = announced lead) :
    ∀ b ∈ bs, isContinuation b = true := by
  induction cs with
  | nil => simp [encode] at h
  | cons c cs ih =>
    obtain ⟨before, after, hsplit⟩ := h
    obtain ⟨first, more, hbytes, hannounced, -⟩ := encodeChar_lead c
    have hmore := encodeChar_tail c
    rw [hbytes] at hmore
    rw [encode, List.flatMap_cons, hbytes, List.append_assoc] at hsplit
    rcases List.append_eq_append_iff.mp hsplit with ⟨gap, hchar, hrest⟩ | ⟨gap, -, hrest⟩
    · match before, gap with
      | _, [] => exact ih ⟨[], after, hrest⟩
      | [], d :: gap =>
        -- the first byte of this character leads, and the others are all that it announces
        cases hchar
        obtain ⟨rfl, hboth⟩ := List.cons.inj hrest
        rw [(List.append_inj hboth (hlength.trans hannounced)).1]
        exact hmore
      | _ :: before, d :: gap =>
        cases hchar
        rw [← (List.cons.inj hrest).1] at hmore
        rw [announced_continuation (hmore lead (by simp)), List.length_eq_zero_iff] at hlength
        simp [hlength]
    · exact ih ⟨gap, after, by rw [List.append_assoc]; exact hrest.symm⟩

end LineShell.Utf8
