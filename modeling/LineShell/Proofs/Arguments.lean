import LineShell.Proofs.Alike
import LineShell.Proofs.Quoting
import Mathlib.Data.List.Basic

/-!
# Argument lists read back

The written form of a word is a row of chunks, each in a style of quoting that
fits its characters. A reader that knows nothing of chunks takes them back one
after another, whatever they hold, and finds no operator in front of them.
-/

set_option autoImplicit false

namespace LineShell

/-! ## Chunks -/

namespace Argv

/-- What a style asks of a character; between double quotes there may be any. -/
structure Styles.Fits (s : Styles) (c : Char) : Prop where
  bare : s.bare = true → isBare c = true
  single : s.single = true → c ≠ '\x27'

namespace Styles.Fits

variable {s t : Styles} {c : Char}

theorem of_stylesOf (c : Char) : (stylesOf c).Fits c := by
  refine ⟨id, ?_⟩
  rintro hsingle rfl
  cases hsingle

theorem of_firstStyles (c : Char) : (firstStyles c).Fits c := by
  unfold firstStyles
  split
  · rename_i hcaret
    exact ⟨nofun, fun _ => by rw [hcaret]; decide⟩
  · exact of_stylesOf c

theorem both_left (h : s.Fits c) : (s.both t).Fits c where
  bare hboth := h.bare (Bool.and_eq_true _ _ ▸ hboth).1
  single hboth := h.single (Bool.and_eq_true _ _ ▸ hboth).1

theorem both_right (h : t.Fits c) : (s.both t).Fits c where
  bare hboth := h.bare (Bool.and_eq_true _ _ ▸ hboth).2
  single hboth := h.single (Bool.and_eq_true _ _ ▸ hboth).2

end Styles.Fits

theorem extend_append (s : Styles) (cs : List Char) :
    (extend s cs).1 ++ (extend s cs).2.2 = cs := by
  induction cs generalizing s with
  | nil => rfl
  | cons c rest ih =>
    simp only [extend]
    split
    · exact congrArg (c :: ·) (ih _)
    · rfl

theorem extend_kept {s : Styles} {c : Char} (h : s.Fits c) (cs : List Char) :
    (extend s cs).2.1.Fits c := by
  induction cs generalizing s with
  | nil => exact h
  | cons d rest ih =>
    simp only [extend]
    split
    · exact ih h.both_left
    · exact h

theorem extend_fits (s : Styles) (cs : List Char) :
    ∀ c ∈ (extend s cs).1, (extend s cs).2.1.Fits c := by
  induction cs generalizing s with
  | nil => simp [extend]
  | cons d rest ih =>
    simp only [extend]
    split
    · rw [List.forall_mem_cons]
      exact ⟨extend_kept (Styles.Fits.both_right (.of_stylesOf d)) rest, ih _⟩
    · simp

theorem isBlank_graphic {c : Char} (h : 0x21 ≤ c.toNat ∧ c.toNat ≤ 0x7e) : isBlank c = false := by
  simp only [isBlank, blankRanges, List.any_cons, List.any_nil]
  simp
  omega

theorem isBare_graphic {c : Char} (h : isBare c = true) : 0x21 ≤ c.toNat ∧ c.toNat ≤ 0x7e := by
  simp only [isBare, Bool.or_eq_true, decide_eq_true_eq] at h
  rcases h with (((((((halnum | rfl) | rfl) | rfl) | rfl) | rfl) | rfl) | rfl) | rfl
  · unfold Char.isAlphanum Char.isAlpha Char.isUpper Char.isLower Char.isDigit at halnum
    simp only [Bool.or_eq_true, Bool.and_eq_true, decide_eq_true_eq, UInt32.le_iff_toNat_le,
      ge_iff_le] at halnum
    have hval : c.val.toNat = c.toNat := rfl
    simp at halnum
    omega
  all_goals decide

theorem isBare_literal {c : Char} (h : isBare c = true) : Word.Literal c ∧ c ≠ '>' := by
  have hne : ∀ d : Char, isBare d = false → c ≠ d := by
    rintro d hd rfl
    rw [h] at hd
    cases hd
  exact ⟨⟨isBlank_graphic (isBare_graphic h), hne _ (by decide), hne _ (by decide),
    hne _ (by decide)⟩, hne _ (by decide)⟩

end Argv

namespace Word
open Argv

/-! ## Chunks taken back -/

theorem take_double {c : Char} (hquote : c ≠ '"') (hescape : c ≠ '\\') (rest : List Char) :
    take .double (c :: rest) = (c :: (take .double rest).1, (take .double rest).2) := by
  cases rest with
  | nil => simp [take, hquote]
  | cons d rest => simp [take, hquote, hescape]

theorem take_doubleQuotedChars (cs rest : List Char) :
    take .double (cs.flatMap (fun c => if c = '"' || c = '\\' then ['\\', c] else [c]) ++
      '"' :: rest) = (cs ++ (take .plain rest).1, (take .plain rest).2) := by
  induction cs with
  | nil => rfl
  | cons c cs ih =>
    rw [List.flatMap_cons, List.append_assoc]
    by_cases hescaped : c = '"' ∨ c = '\\'
    · have hescapable : escapable c = true := by rcases hescaped with rfl | rfl <;> rfl
      have hwritten : (if c = '"' || c = '\\' then ['\\', c] else [c]) = ['\\', c] :=
        if_pos (by simpa using hescaped)
      rw [hwritten, List.cons_append, List.singleton_append, take, if_pos hescapable, ih]
      rfl
    · rw [not_or] at hescaped
      have hwritten : (if c = '"' || c = '\\' then ['\\', c] else [c]) = [c] :=
        if_neg (by simpa using hescaped)
      rw [hwritten, List.singleton_append, take_double hescaped.1 hescaped.2, ih]
      rfl

theorem take_quoteChunk {s : Styles} {chunk : List Char} (h : ∀ c ∈ chunk, s.Fits c)
    (rest : List Char) :
    take .plain (quoteChunk s chunk ++ rest) =
      (chunk ++ (take .plain rest).1, (take .plain rest).2) := by
  unfold quoteChunk
  split
  · rename_i hbare
    exact take_literals (fun c hc => (isBare_literal ((h c hc).bare hbare)).1) rest
  split
  · rename_i hsingle
    have hquoted : chunk.flatMap singleQuotedChar = chunk := by
      have hplain : ∀ c ∈ chunk, singleQuotedChar c = [c] :=
        fun c hc => if_neg ((h c hc).single hsingle)
      rw [List.flatMap_congr hplain, List.flatMap_singleton']
    rw [List.append_assoc, List.cons_append, List.singleton_append]
    show take .single (chunk ++ '\x27' :: rest) = _
    have htake := take_singleQuotedChars chunk rest
    rwa [hquoted] at htake
  · rw [List.append_assoc, List.cons_append, List.singleton_append]
    exact take_doubleQuotedChars chunk rest

theorem take_quoteChunks (cs : List Char) {rest : List Char} (h : Ends rest) :
    take .plain (quoteChunks cs ++ rest) = (cs, rest) := by
  fun_induction quoteChunks cs with
  | case1 => exact take_ends h
  | case2 c cs parts ih =>
    have hfits : ∀ d ∈ c :: parts.1, parts.2.1.Fits d := by
      rw [List.forall_mem_cons]
      exact ⟨extend_kept (.of_firstStyles c) cs, extend_fits _ _⟩
    rw [List.append_assoc, take_quoteChunk hfits, ih, List.cons_append, extend_append]

/-! ## Whole words -/

theorem quoteChunk_quoted {s : Styles} (h : ¬ s.bare = true) (chunk : List Char) :
    ∃ quote tail, quoteChunk s chunk = quote :: tail ∧ (quote = '\x27' ∨ quote = '"') := by
  rw [quoteChunk, if_neg h]
  split
  · exact ⟨_, _, rfl, .inl rfl⟩
  · exact ⟨_, _, rfl, .inr rfl⟩

theorem quoteChunks_starts (c : Char) (cs : List Char) :
    ∃ d tail, quoteChunks (c :: cs) = d :: tail ∧ isBlank d = false ∧ d ≠ '>' := by
  rw [quoteChunks]
  by_cases hbare : (extend (firstStyles c) cs).2.1.bare = true
  · have hliteral := isBare_literal ((extend_kept (.of_firstStyles c) cs).bare hbare)
    exact ⟨c, _, by rw [quoteChunk, if_pos hbare]; rfl, hliteral.1.notBlank, hliteral.2⟩
  · obtain ⟨quote, tail, hchunk, hquote⟩ :=
      quoteChunk_quoted hbare (c :: (extend (firstStyles c) cs).1)
    refine ⟨quote, _, by rw [hchunk]; rfl, ?_⟩
    rcases hquote with rfl | rfl
    · decide
    · decide

theorem quoteChunks_noArrow (cs : List Char) {rest : List Char} (h : Ends rest) :
    (quoteChunks cs ++ rest).head? ≠ some '>' := by
  cases cs with
  | nil =>
    rw [quoteChunks]
    intro hhead
    exact absurd (h '>' hhead) (by decide)
  | cons c cs =>
    obtain ⟨d, tail, htext, -, harrow⟩ := quoteChunks_starts c cs
    rw [htext]
    simpa using harrow

theorem quoteChunks_noOperator (cs : List Char) {rest : List Char} (h : Ends rest) :
    operator? (quoteChunks cs ++ rest) = none := by
  refine operator?_eq_none (quoteChunks_noArrow cs h) fun d hd hdigit => ?_
  cases cs with
  | nil =>
    rw [quoteChunks] at hd
    have hblank : isBlank d = true := h d hd
    rcases hdigit with rfl | rfl | rfl <;> cases hblank
  | cons c cs =>
    rw [quoteChunks, List.append_assoc] at hd ⊢
    by_cases hbare : (extend (firstStyles c) cs).2.1.bare = true
    · have hfits := extend_fits (firstStyles c) cs
      have hafter := quoteChunks_noArrow (extend (firstStyles c) cs).2.2 h
      rw [quoteChunk, if_pos hbare]
      cases hchunk : (extend (firstStyles c) cs).1 with
      | nil => exact hafter
      | cons e chunk =>
        have harrow := (isBare_literal ((hfits e (by simp [hchunk])).bare hbare)).2
        simpa using harrow
    · obtain ⟨quote, tail, hchunk, hquote⟩ :=
        quoteChunk_quoted hbare (c :: (extend (firstStyles c) cs).1)
      rw [hchunk] at hd
      cases hd
      rcases hquote with rfl | rfl <;> exact absurd hdigit (by decide)

theorem quoteWord_written (word : String) : Written (quoteWord word).toList word := by
  by_cases hempty : word = ""
  · subst hempty
    exact singleQuoted_written ""
  obtain ⟨c, cs, hword⟩ := List.exists_cons_of_ne_nil (mt String.toList_eq_nil_iff.mp hempty)
  obtain ⟨d, tail, htext, hblank, -⟩ := quoteChunks_starts c cs
  rw [quoteWord, if_neg hempty, String.toList_ofList]
  exact ⟨⟨d, tail, hword ▸ htext, hblank⟩, fun rest hrest => quoteChunks_noOperator _ hrest,
    fun rest hrest => take_quoteChunks _ hrest⟩

end Word

/-! ## Argument lists -/

namespace Argv

def NoNul (words : List String) : Prop := ∀ word ∈ words, ∀ c ∈ word.toList, c.toNat ≠ 0

instance (words : List String) : Decidable (NoNul words) :=
  have (word : String) := List.decidableBAll (fun c : Char => c.toNat ≠ 0) word.toList
  List.decidableBAll (fun word : String => ∀ c ∈ word.toList, c.toNat ≠ 0) words

theorem toList_intercalate (word : String) (words : List String) :
    (" ".intercalate (word :: words)).toList = word.toList ++ words.flatMap (' ' :: ·.toList) := by
  induction words generalizing word with
  | nil => simp
  | cons other words ih =>
    rw [String.intercalate_cons_cons, String.toList_append, ih, String.toList_append,
      List.flatMap_cons]
    simp

theorem toList_render {name : String} {args : List String} (h : NoNul (name :: args)) :
    (render (name :: args)).toList =
      (quoteWord name).toList ++ args.flatMap fun a => ' ' :: (quoteWord a).toList := by
  have hnul : ¬ (name :: args).any (fun w => w.toList.any (·.toNat = 0)) = true := by
    simp only [List.any_eq_true, decide_eq_true_eq]
    rintro ⟨word, hword, c, hc, hzero⟩
    exact h word hword c hc hzero
  rw [render, if_neg hnul, List.map_cons, toList_intercalate, List.flatMap_map]

/-- The written form of an argument list has its words, as arguments and in their order. -/
theorem splitWords_render {name : String} {args : List String} (h : NoNul (name :: args)) :
    splitWords (render (name :: args)) = .arg name :: args.map .arg := by
  have hargs : ∀ a ∈ args, Word.Written (quoteWord a).toList a :=
    fun a _ => Word.quoteWord_written a
  have hends : Word.Ends [] := by rintro c ⟨⟩
  have hread := Word.read_command (Word.quoteWord_written name) hargs hends
  have hnothing : Word.read none [] = [] := Word.read_ended none rfl
  rw [List.append_nil, hnothing, List.append_nil] at hread
  rw [splitWords, toList_render h, hread]

end Argv

/-! ## What is logged -/

namespace Host

theorem notices_lasting (n : Notice) : Lasting fun h => n ∈ h.journal.notices := by
  refine .of_stdout (fun _ h => h) (fun m h => ?_) (fun _ h => h) fun _ h => h
  rw [notices_note]
  exact List.mem_append_left _ h

end Host

namespace Command

/-- What a program is started with can be read back from the notice about it. -/
theorem runProgram_spawning (c : Command) (s : Session) (j : Job)
    (h : Argv.NoNul (c.name :: c.args)) :
    let shown := Argv.render (c.name :: c.args)
    splitWords shown = (c.name :: c.args).map .arg ∧
      ∀ path, s.locate j.host.tree j.host.start c.name = some path →
        ⟨.debug, s!"spawning {path.text} in {s.cwd.text}: {shown}"⟩ ∈
          (c.runProgram s j).2.journal.notices := by
  intro shown
  refine ⟨Argv.splitWords_render h, fun path hpath => ?_⟩
  generalize hnotice : (⟨.debug, s!"spawning {path.text} in {s.cwd.text}: {shown}"⟩ : Notice) = notice
  have hnoted : notice ∈ (j.host.note notice).journal.notices := by
    rw [Host.notices_note]
    exact List.mem_append_right _ (List.mem_singleton_self _)
  unfold runProgram
  rw [hpath]
  dsimp only
  rw [hnotice]
  split
  · exact hnoted
  · obtain ⟨left, k, k', hk, -, -, hkept⟩ := Launch.perform_keeps
      (Host.notices_lasting notice).similar _ _ _ j.streams (fun _ _ hloc => by cases hloc)
      ⟨rfl, hnoted⟩
    rw [hk]
    exact hkept

/-- Words that need each kind of quotes or both, an operator, a bare digit and an empty word. -/
theorem runProgram_spawning_quoted :
    let c : Command := ⟨"./2>", ["it\x27s", "^\\\"!", "2", ">>", "", "a b\n"], .empty⟩
    let shown := "\x27./2>\x27 \"it\x27s\" \x27^\x27\"\\\\\\\"\"\x27!\x27 2 \x27>>\x27 \x27\x27 \x27a b\n\x27"
    Argv.NoNul (c.name :: c.args) ∧ Argv.render (c.name :: c.args) = shown ∧
      splitWords shown = (c.name :: c.args).map .arg := by
  intro c shown
  have hnul : Argv.NoNul (c.name :: c.args) := by decide +kernel
  have hshown : Argv.render (c.name :: c.args) = shown := by decide +kernel
  have hread := (c.runProgram_spawning ⟨⟨"/"⟩, none, ⟨[]⟩⟩ ⟨⟨⟨[]⟩, [], none, .opened false, .empty,
    ⟨[], none, ""⟩⟩, ⟨none, none, none⟩⟩ hnul).1
  rw [hshown] at hread
  exact ⟨hnul, hshown, hread⟩

end Command

end LineShell
