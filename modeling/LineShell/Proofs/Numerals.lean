import LineShell.Proofs.Refusals
import Mathlib.Data.List.Induction
import Mathlib.Data.Nat.Digits.Defs

/-!
# Numerals of `exit`

A numeral is an optional sign and at least one digit, with any number of zeros before it,
and stands for a number of any size. `exit` takes those whose number fits into 32 bits with
a sign, and among them the decimal text of each such number. To all other words it says
that it requires a number.
-/

set_option autoImplicit false

namespace LineShell

namespace Numeral

def digitText (digits : List (Fin 10)) : List Char :=
  digits.map fun d => Nat.digitChar d.val

def amount (digits : List (Fin 10)) : Nat := Nat.ofDigits 10 (digits.map Fin.val).reverse

inductive Spells : List Char → Int → Prop
  | plain (digits : List (Fin 10)) (h : digits ≠ []) : Spells (digitText digits) (amount digits)
  | plus (digits : List (Fin 10)) (h : digits ≠ []) :
      Spells ('+' :: digitText digits) (amount digits)
  | minus (digits : List (Fin 10)) (h : digits ≠ []) :
      Spells ('-' :: digitText digits) (-amount digits)

def Fits (v : Int) : Prop := -2147483648 ≤ v ∧ v ≤ 2147483647

section Digits

variable {cs : List Char} {digits : List (Fin 10)} {n : Nat} {v : Int}

theorem digitValue_digitChar (d : Fin 10) : digitValue (Nat.digitChar d) = d := by
  revert d
  decide

theorem value_digitText (digits : List (Fin 10)) : value (digitText digits) = amount digits := by
  induction digits using List.reverseRecOn with
  | nil => rfl
  | append_singleton digits d ih =>
    have hvalue : value (digitText (digits ++ [d])) =
        10 * value (digitText digits) + digitValue (Nat.digitChar d) := by
      rw [digitText, List.map_append, value, List.foldl_append]
      rfl
    have hamount : amount (digits ++ [d]) = d + 10 * amount digits := by
      rw [amount, List.map_append, List.reverse_append]
      exact Nat.ofDigits_cons
    rw [hvalue, hamount, ih, digitValue_digitChar, Nat.add_comm]

theorem digitText_isDigit (digits : List (Fin 10)) : (digitText digits).all isDigit = true := by
  have hdigit : ∀ d : Fin 10, isDigit (Nat.digitChar d) = true := by decide
  simp [digitText, hdigit]

theorem digitChar_digitValue {c : Char} (h : isDigit c = true) :
    digitValue c < 10 ∧ Nat.digitChar (digitValue c) = c := by
  simp only [isDigit, Bool.and_eq_true, decide_eq_true_eq, Char.le_def, UInt32.le_iff_toNat_le] at h
  have hlow : 48 ≤ c.toNat := h.1
  have hhigh : c.toNat ≤ 57 := h.2
  have hvalue : digitValue c = c.toNat - 48 := rfl
  have hsmall : digitValue c < 10 := by omega
  refine ⟨hsmall, Char.toNat_inj.mp ?_⟩
  rw [Nat.toNat_digitChar_of_lt_ten hsmall]
  omega

theorem exists_digitText (h : cs.all isDigit = true) : ∃ digits, cs = digitText digits := by
  induction cs with
  | nil => exact ⟨[], rfl⟩
  | cons c cs ih =>
    rw [List.all_cons, Bool.and_eq_true] at h
    obtain ⟨digits, rfl⟩ := ih h.2
    obtain ⟨hsmall, hchar⟩ := digitChar_digitValue h.1
    exact ⟨⟨digitValue c, hsmall⟩ :: digits, congrArg (· :: digitText digits) hchar.symm⟩

theorem natural?_digitText (h : digits ≠ []) :
    natural? (digitText digits) = some (amount digits) := by
  have hne : digitText digits ≠ [] := mt List.map_eq_nil_iff.mp h
  rw [natural?, digitText_isDigit, value_digitText, List.isEmpty_eq_false_iff.mpr hne]
  rfl

theorem natural?_eq_some (h : natural? cs = some n) :
    ∃ digits, digits ≠ [] ∧ cs = digitText digits ∧ n = amount digits := by
  unfold natural? at h
  split at h
  · rename_i hcs
    rw [Bool.and_eq_true] at hcs
    obtain ⟨digits, rfl⟩ := exists_digitText hcs.2
    refine ⟨digits, ?_, rfl, ?_⟩
    · rintro rfl
      cases hcs.1
    · rw [← value_digitText]
      exact (Option.some.inj h).symm
  · cases h

theorem integer?_minus (cs : List Char) :
    integer? ('-' :: cs) = (natural? cs).map fun n => -Int.ofNat n := by
  rw [integer?]
  cases natural? cs with
  | none => rfl
  | some n => rfl

theorem integer?_digitText (h : digits ≠ []) :
    integer? (digitText digits) = (natural? (digitText digits)).map Int.ofNat := by
  have hsign : ∀ d : Fin 10, Nat.digitChar d ≠ '-' ∧ Nat.digitChar d ≠ '+' := by decide
  obtain ⟨d, digits, rfl⟩ := List.exists_cons_of_ne_nil h
  have htext : digitText (d :: digits) = Nat.digitChar d :: digitText digits := rfl
  rw [htext]
  unfold integer?
  split
  · rename_i heq
    exact absurd (List.cons.inj heq).1 (hsign d).1
  · rename_i heq
    exact absurd (List.cons.inj heq).1 (hsign d).2
  · rfl

theorem integer?_eq_some_iff : integer? cs = some v ↔ Spells cs v := by
  constructor
  · intro h
    have hminus := integer?_minus cs.tail
    unfold integer? at h
    split at h
    · obtain ⟨n, hn, rfl⟩ := Option.map_eq_some_iff.mp (hminus.symm.trans h)
      obtain ⟨digits, hne, rfl, rfl⟩ := natural?_eq_some hn
      exact .minus digits hne
    · obtain ⟨n, hn, rfl⟩ := Option.map_eq_some_iff.mp h
      obtain ⟨digits, hne, rfl, rfl⟩ := natural?_eq_some hn
      exact .plus digits hne
    · obtain ⟨n, hn, rfl⟩ := Option.map_eq_some_iff.mp h
      obtain ⟨digits, hne, rfl, rfl⟩ := natural?_eq_some hn
      exact .plain digits hne
  · intro h
    cases h with
    | plain digits hne => rw [integer?_digitText hne, natural?_digitText hne]; rfl
    | plus digits hne => rw [integer?, natural?_digitText hne]; rfl
    | minus digits hne => rw [integer?_minus, natural?_digitText hne]; rfl

theorem int32?_eq_some_iff {s : String} : int32? s = some v ↔ Spells s.toList v ∧ Fits v := by
  have hbounds : (-0x80000000 ≤ v && v < 0x80000000) = true ↔ Fits v := by
    rw [Bool.and_eq_true, decide_eq_true_eq, decide_eq_true_eq, Fits]
    omega
  rw [int32?, Option.filter_eq_some_iff, integer?_eq_some_iff, hbounds]

/-- Zeros before a number do not count, and a sign needs a digit. -/
example : int32? "-0002147483648" = some (-2147483648) ∧ int32? "+" = none := by decide +kernel

theorem spells_toDigits (n : Nat) : ∃ digits, digits ≠ [] ∧
    Nat.toDigits 10 n = digitText digits ∧ amount digits = n := by
  have hdigits : (Nat.toDigits 10 n).all isDigit = true := by
    rw [List.all_eq_true]
    intro c hc
    have hdigit := Nat.isDigit_of_mem_toDigits (by decide) (by decide) hc
    simpa [Char.isDigit, isDigit, Char.le_def] using hdigit
  obtain ⟨digits, htext⟩ := exists_digitText hdigits
  refine ⟨digits, ?_, htext, ?_⟩
  · rintro rfl
    exact Nat.toDigits_ne_nil htext
  · rw [← value_digitText, ← htext]
    exact Nat.ofDigitChars_ten_toDigits

theorem spells_repr (v : Int) : Spells v.repr.toList v := by
  cases v with
  | ofNat n =>
    obtain ⟨digits, hne, htext, hn⟩ := spells_toDigits n
    have hrepr : (Int.ofNat n).repr.toList = digitText digits := Nat.toList_repr.trans htext
    rw [hrepr, ← hn]
    exact .plain digits hne
  | negSucc n =>
    obtain ⟨digits, hne, htext, hn⟩ := spells_toDigits (n + 1)
    have hrepr : (Int.negSucc n).repr.toList = '-' :: digitText digits := by
      rw [← htext, ← Nat.toList_repr]
      exact String.toList_append
    rw [hrepr, Int.negSucc_eq, ← Int.natCast_add_one, ← hn]
    exact .minus digits hne

end Digits

end Numeral

namespace Builtin
open Numeral (Spells Fits int32?_eq_some_iff)

def numberRequired (code : String) : String := "exit: " ++ code ++ ": numeric argument required\n"

theorem numberRequired_spoken (code : String) : Utf8.ofString (numberRequired code) ≠ [] := by
  rw [numberRequired, Utf8.ofString_append, Utf8.ofString_append, List.append_assoc]
  exact List.append_ne_nil_of_left_ne_nil (by decide) _

section Exit

variable (s : Session) (t : FileTree) (start : Location) {code : String}

theorem run_exit_number {v : Int} (h : Spells code.toList v ∧ Fits v) :
    exit.run s t start [code] = .message s .out [] (.leave v) := by
  rw [run, runExit, int32?_eq_some_iff.mpr h]

theorem run_exit_word (h : ¬ ∃ v, Spells code.toList v ∧ Fits v) :
    exit.run s t start [code] =
      .message s .err ["exit: ", code, ": numeric argument required\n"] (.leave 2) := by
  have hnone : Numeral.int32? code = none := by
    rw [Option.eq_none_iff_forall_ne_some]
    exact fun v hv => h ⟨v, int32?_eq_some_iff.mp hv⟩
  rw [run, runExit, hnone]

/-- The line is put out in three pieces, but it is the line that is taken or not. -/
theorem deliver_exit_word (h : ¬ ∃ v, Spells code.toList v ∧ Fits v)
    (sides : Recorder × Recorder) :
    let told := (exit.run s t start [code]).deliver sides
    let line := Utf8.ofString (numberRequired code)
    (sides.2.HasRoom line → told.1 = .ok (.leave 2) ∧
      told.2.1.kept.bytes = sides.1.kept.bytes ∧
      told.2.2.kept.bytes = sides.2.kept.bytes ++ line) ∧
    (¬ sides.2.HasRoom line → ∃ refusal, told.1 = .error refusal) := by
  rw [run_exit_word s t start h]
  intro told line
  let report : Report := .message s .err ["exit: ", code, ": numeric argument required\n"] (.leave 2)
  have hline : (Channel.err.pieces report.writes).flatten = line := by
    simp only [line, numberRequired, Utf8.ofString_append, List.append_assoc]
    show Utf8.ofString "exit: " ++ (Utf8.ofString code ++ (_ ++ [])) = _
    rw [List.append_nil]
  constructor
  · intro hroom
    have htold : told = (.ok (.leave 2), Outlets.feed sides report.writes) := by
      refine Report.deliver_roomy fun channel => ?_
      cases channel with
      | out => exact Recorder.hasRoom_nil _
      | err => exact hline ▸ hroom
    have hbytes (channel : Channel) : (channel.side told.2).kept.bytes =
        (channel.side sides).kept.bytes ++ (channel.pieces report.writes).flatten := by
      rw [htold, Outlets.side_feed, Recorder.fedAll_bytes]
    exact ⟨congrArg Prod.fst htold, (hbytes .out).trans (List.append_nil _),
      (hbytes .err).trans (by rw [hline]; rfl)⟩
  · intro hcramped
    rcases report.deliver_cases sides with ⟨hroomy, -⟩ | ⟨refusal, left, htold, -⟩
    · exact absurd (hline ▸ hroomy .err) hcramped
    · exact ⟨refusal, congrArg Prod.fst htold⟩

/-- `exit` with one argument, on writers with any room. It ends the session with a number and
writes nothing exactly if the argument is a numeral for that number and the number fits. To
any other word it has one line to say; if the writer takes it, the session ends with 2. The
decimal text of each number that fits is such a numeral. -/
theorem run_exit_numeral (out err : Option (Nat × OsError)) :
    let sides : Recorder × Recorder := (⟨out, .empty⟩, ⟨err, .empty⟩)
    let told (word : String) := (exit.run s t start [word]).deliver sides
    (∀ (word : String) (v : Int),
      (told word).1 = .ok (.leave v) ∧
          (∀ channel : Channel, (channel.side (told word).2).kept.bytes = []) ↔
        Spells word.toList v ∧ Fits v) ∧
    (∀ word : String, (¬ ∃ v, Spells word.toList v ∧ Fits v) →
      let line := Utf8.ofString (numberRequired word)
      (sides.2.HasRoom line → (told word).1 = .ok (.leave 2) ∧
        (told word).2.1.kept.bytes = [] ∧ (told word).2.2.kept.bytes = line) ∧
      (¬ sides.2.HasRoom line → ∃ refusal, (told word).1 = .error refusal)) ∧
    ∀ v : Int, Fits v → (told v.repr).1 = .ok (.leave v) := by
  intro sides told
  have hnumber {word : String} {v : Int} (h : Spells word.toList v ∧ Fits v) :
      told word = (.ok (.leave v), sides) := by
    simp only [told, run_exit_number s t start h]
    rfl
  refine ⟨fun word v => ⟨fun ⟨hflow, hsilent⟩ => ?_, fun h => ?_⟩, fun word h => ?_, fun v hv => ?_⟩
  · by_cases hfits : ∃ v, Spells word.toList v ∧ Fits v
    · obtain ⟨w, hw⟩ := hfits
      rw [hnumber hw] at hflow
      cases hflow
      exact hw
    · -- a word that is no number is not passed over in silence
      obtain ⟨hroomy, hcramped⟩ := deliver_exit_word s t start hfits sides
      by_cases hroom : sides.2.HasRoom (Utf8.ofString (numberRequired word))
      · obtain ⟨-, -, herr⟩ := hroomy hroom
        exact absurd (herr.symm.trans (hsilent .err)) (numberRequired_spoken word)
      · obtain ⟨refusal, hrefused⟩ := hcramped hroom
        cases hflow.symm.trans hrefused
  · rw [hnumber h]
    exact ⟨rfl, fun channel => by cases channel <;> rfl⟩
  · exact deliver_exit_word s t start h sides
  · rw [hnumber ⟨Numeral.spells_repr v, hv⟩]

theorem run_exit_numeral_limits :
    let word := "2147483648"
    let err : Option (Nat × OsError) := some (100, .noSpace)
    let sides : Recorder × Recorder := (⟨none, .empty⟩, ⟨err, .empty⟩)
    let told (word : String) := (exit.run ⟨⟨"/"⟩, none, ⟨[]⟩⟩ ⟨[]⟩ [] [word]).deliver sides
    (¬ ∃ v, Spells word.toList v ∧ Fits v) ∧
      sides.2.HasRoom (Utf8.ofString (numberRequired word)) ∧
      (told word).1 = .ok (.leave 2) ∧
      (told word).2.2.kept.bytes = Utf8.ofString (numberRequired word) ∧
      Fits (-2147483648) ∧ (told "-2147483648").1 = .ok (.leave (-2147483648)) := by
  intro word err sides told
  have hlarge : ¬ ∃ v, Spells word.toList v ∧ Fits v := by
    rintro ⟨v, hv⟩
    have hnone : Numeral.int32? word = none := by decide +kernel
    cases hnone.symm.trans (int32?_eq_some_iff.mpr hv)
  have hroom : sides.2.HasRoom (Utf8.ofString (numberRequired word)) :=
    (Recorder.hasRoom_of_limit rfl).mpr (by decide +kernel)
  have hleast : Fits (-2147483648) := ⟨by decide, by decide⟩
  have hrepr : Int.repr (-2147483648) = "-2147483648" := by decide +kernel
  obtain ⟨-, hwords, hnumbers⟩ := run_exit_numeral ⟨⟨"/"⟩, none, ⟨[]⟩⟩ ⟨[]⟩ [] none err
  obtain ⟨hflow, -, hline⟩ := (hwords word hlarge).1 hroom
  have hnumber := hnumbers _ hleast
  rw [hrepr] at hnumber
  exact ⟨hlarge, hroom, hflow, hline, hleast, hnumber⟩

end Exit

end Builtin

end LineShell
