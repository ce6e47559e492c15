import LineShell.Proofs.Utf8

/-!
# The order of texts

Texts are compared by their code points. Their bytes in UTF-8 stand in the same
order: no character begins with the bytes of another one, and of two characters
the smaller has the smaller byte where they first differ.
-/

set_option autoImplicit false

namespace LineShell.Utf8

theorem ofNat_lt_ofNat {m n : Nat} (hm : m < 0x100) (hn : n < 0x100) :
    UInt8.ofNat m < UInt8.ofNat n ↔ m < n := by
  rw [UInt8.lt_iff_toNat_lt, toNat_ofNat hm, toNat_ofNat hn]

theorem ofNat_eq_ofNat {m n : Nat} (hm : m < 0x100) (hn : n < 0x100) :
    UInt8.ofNat m = UInt8.ofNat n ↔ m = n := by
  rw [← UInt8.toNat_inj, toNat_ofNat hm, toNat_ofNat hn]

theorem encodeChar_lt {c d : Char} (h : c < d) (as bs : Bytes) :
    String.utf8EncodeChar c ++ as < String.utf8EncodeChar d ++ bs := by
  have hc := scalar_range c
  have hd := scalar_range d
  have hlt : c.toNat < d.toNat := h
  simp only [String.utf8EncodeChar, show c.val.toNat = c.toNat from rfl,
    show d.val.toNat = d.toNat from rfl]
  generalize c.toNat = m at *
  generalize d.toNat = n at *
  have hlength (k : Nat) :
      k ≤ 0x7f ∨ (0x7f < k ∧ k ≤ 0x7ff) ∨ (0x7ff < k ∧ k ≤ 0xffff) ∨ 0xffff < k := by
    omega
  have hdigits (k : Nat) (hk : k < 0x110000) :
      k / 64 / 64 = k / 4096 ∧ k / 4096 / 64 = k / 262144 ∧ k / 262144 % 8 = k / 262144 := by
    omega
  have hmdigits := hdigits m (by omega)
  have hndigits := hdigits n (by omega)
  -- a longer sequence has the greater first byte, and sequences of one length
  -- differ first where the numbers do in base 64
  rcases hlength m with hm | hm | hm | hm <;> rcases hlength n with hn | hn | hn | hn <;>
    simp (disch := omega) only [if_pos, if_neg, List.cons_append, List.nil_append,
      List.cons_lt_cons_iff, ofNat_lt_ofNat, ofNat_eq_ofNat] <;>
    omega

theorem encode_cons (c : Char) (cs : List Char) :
    encode (c :: cs) = String.utf8EncodeChar c ++ encode cs := List.flatMap_cons

theorem encode_lt {cs ds : List Char} (h : cs < ds) : encode cs < encode ds := by
  induction cs generalizing ds with
  | nil =>
    cases ds with
    | nil => exact absurd h (List.lt_irrefl _)
    | cons d ds =>
      obtain ⟨b, bs, hbytes, -⟩ := encodeChar_lead d
      rw [encode_cons, hbytes]
      exact List.nil_lt_cons _ _
  | cons c cs ih =>
    cases ds with
    | nil => exact absurd h (List.not_lt_nil _)
    | cons d ds =>
      rw [encode_cons, encode_cons]
      rcases List.cons_lt_cons_iff.mp h with hfirst | ⟨rfl, hrest⟩
      · exact encodeChar_lt hfirst _ _
      · exact List.append_left_lt (ih hrest)

theorem ofString_lt_iff {s t : String} : ofString s < ofString t ↔ s < t := by
  rw [String.lt_iff]
  refine ⟨fun h => ?_, encode_lt⟩
  refine Decidable.byContradiction fun hnot => ?_
  rcases List.le_iff_lt_or_eq.mp (List.not_lt.mp hnot) with hlt | heq
  · exact List.lt_asymm h (encode_lt hlt)
  · rw [ofString, ofString, heq] at h
    exact List.lt_irrefl _ h

end LineShell.Utf8
