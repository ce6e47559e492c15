import LineShell.Proofs.LineFeeds

/-!
# Alt plus a key

After an escape byte one more byte goes, not one character. The rest of a longer
character is typed then, each byte as the replacement character. Where no such
character follows an escape byte, a text that comes in is read character by
character, and no other replacement character gets into a line.
-/

set_option autoImplicit false

namespace LineShell

namespace Utf8

theorem decodeLossy_continuation {b : UInt8} (h : isContinuation b = true) :
    decodeLossy [b] = [replacement] := by
  simp only [isContinuation, Bool.and_eq_true, decide_eq_true_eq, UInt8.le_iff_toNat_le] at h
  have hlow : 0x80 ≤ b.toNat := h.1
  have hhigh : b.toNat ≤ 0xbf := h.2
  have hstart : start b = .invalid := by
    rw [start, if_neg (by omega), if_pos (by omega)]
  simp [decodeLossy, scan, hstart]

theorem encode_length (c : Char) : (encode [c]).length = c.utf8Size := by
  rw [encode, List.flatMap_singleton, String.length_utf8EncodeChar]

theorem encodeChar_low {c : Char} {b : UInt8} {bs : Bytes} (h : String.utf8EncodeChar c = b :: bs)
    (hb : b < 0x80) : bs = [] ∧ c.toNat = b.toNat := by
  obtain ⟨lead, more, hbytes, -, hlead⟩ := encodeChar_lead c
  cases h.symm.trans hbytes
  have hlow : b.toNat < 0x80 := UInt8.lt_iff_toNat_lt.mp hb
  have hc : c.toNat = b.toNat := by omega
  have hascii := encode_ascii (c := c) (by omega)
  rw [encode, List.flatMap_singleton, h] at hascii
  exact ⟨(List.cons.inj hascii).2, hc⟩

theorem encodeChar_high {c : Char} {b : UInt8} {bs : Bytes} (h : String.utf8EncodeChar c = b :: bs)
    (hb : ¬ b < 0x80) : 0x80 ≤ c.toNat := by
  by_contra hc
  have hascii := encode_ascii (c := c) (by omega)
  rw [encode, List.flatMap_singleton, h] at hascii
  rw [(List.cons.inj hascii).1, UInt8.lt_iff_toNat_lt, toNat_ofNat (by omega)] at hb
  exact hc (Nat.not_lt.mp hb)

end Utf8

/-! ## A text that comes in -/

namespace Key

/-- The bytes of a stream are those of a text. -/
def Carries (events : List Event) (cs : List Char) : Prop := arrived events = Utf8.encode cs

variable {events rest : List Event} {cs later : List Char} {key : Key} {b : UInt8} {bs : Bytes}

theorem carries_byte (h : Carries events cs) (hb : nextByte events = (.ok b, rest)) :
    ∃ c later bs, cs = c :: later ∧ String.utf8EncodeChar c = b :: bs ∧
      arrived rest = bs ++ Utf8.encode later := by
  obtain ⟨idle, rfl, hidle⟩ := nextByte_ok hb
  have harrived : b :: arrived rest = Utf8.encode cs := by
    rw [← h, arrived_append, hidle]
    rfl
  cases cs with
  | nil => cases harrived
  | cons c later =>
    obtain ⟨lead, bs, hbytes, -⟩ := Utf8.encodeChar_lead c
    rw [Utf8.encode, List.flatMap_cons, hbytes] at harrived
    obtain ⟨rfl, hrest⟩ := List.cons.inj harrived
    exact ⟨c, later, bs, rfl, hbytes, hrest⟩

theorem carries_low (h : Carries events cs) (hb : nextByte events = (.ok b, rest))
    (hlow : b < 0x80) : ∃ c later, cs = c :: later ∧ c.toNat = b.toNat ∧ Carries rest later := by
  obtain ⟨c, later, bs, rfl, hbytes, hrest⟩ := carries_byte h hb
  obtain ⟨rfl, hc⟩ := Utf8.encodeChar_low hbytes hlow
  exact ⟨c, later, rfl, hc, hrest⟩

theorem carries_bytes {n : Nat} {taken : Bytes} (h : arrived events = bs ++ Utf8.encode later)
    (hlength : bs.length = n) (htaken : nextBytes n events = (.ok taken, rest)) :
    taken = bs ∧ Carries rest later := by
  obtain ⟨hsame, bytes, rfl, rfl⟩ := nextBytes_ok htaken
  rw [arrived_append] at h
  exact List.append_inj h (hsame.trans hlength.symm)

theorem skipParameters_carries (h : Carries events cs)
    (hskip : skipParameters events = (.ok key, rest)) :
    ∃ later, later <:+ cs ∧ Carries rest later := by
  fun_induction skipParameters events generalizing cs with
  | case1 => cases hskip
  | case2 tail ih => exact ih h hskip
  | case3 => cases hskip
  | case4 b tail hparameter ih =>
    have hlow : b < 0x80 := by
      simp only [Bool.and_eq_true, decide_eq_true_eq] at hparameter
      exact UInt8.lt_of_le_of_lt hparameter.2 (by decide)
    obtain ⟨c, later, rfl, -, hlater⟩ := carries_low h rfl hlow
    obtain ⟨last, hlast, hrest⟩ := ih hlater hskip
    exact ⟨last, hlast.trans (List.suffix_cons _ _), hrest⟩
  | case5 b tail _ hfinal =>
    cases hskip
    have hlow : b < 0x80 := by
      simp only [Bool.and_eq_true, decide_eq_true_eq] at hfinal
      exact UInt8.lt_of_le_of_lt hfinal.2 (by decide)
    obtain ⟨c, later, rfl, -, hlater⟩ := carries_low h rfl hlow
    exact ⟨later, List.suffix_cons _ _, hlater⟩
  | case6 =>
    cases hskip
    exact ⟨cs, List.suffix_rfl, h⟩

theorem skipEscaped_carries (h : Carries events cs)
    (hskip : skipEscaped events = (.ok key, rest)) :
    (∃ later, later <:+ cs ∧ Carries rest later) ∨ ∃ c later, cs = c :: later ∧ 0x80 ≤ c.toNat := by
  unfold skipEscaped at hskip
  split at hskip
  · cases hskip
  rename_i b tail hb
  by_cases hlow : b < 0x80
  · obtain ⟨c, later, hcs, -, hlater⟩ := carries_low h hb hlow
    have hsuffix : later <:+ cs := hcs ▸ List.suffix_cons _ _
    split at hskip
    · cases hskip
      obtain ⟨idle, rfl, hidle⟩ := nextByte_ok hb
      refine .inl ⟨cs, List.suffix_rfl, ?_⟩
      rw [Carries, ← h, arrived_append, hidle, List.nil_append]
    split at hskip
    · obtain ⟨last, hlast, hrest⟩ := skipParameters_carries hlater hskip
      exact .inl ⟨last, hlast.trans hsuffix, hrest⟩
    · cases hskip
      exact .inl ⟨later, hsuffix, hlater⟩
  · obtain ⟨c, later, bs, rfl, hbytes, -⟩ := carries_byte h hb
    exact .inr ⟨c, later, rfl, Utf8.encodeChar_high hbytes hlow⟩

/-- Each key takes whole characters, and types what came in, unless a character
of more than one byte follows an escape byte. -/
theorem next_carries (h : Carries events cs) (hnext : next events = (.ok key, rest)) :
    (∃ later, later <:+ cs ∧ Carries rest later ∧ ∀ text, key = .typed text → text ⊆ cs) ∨
      ∃ c later, cs = '\x1b' :: c :: later ∧ 0x80 ≤ c.toNat := by
  unfold next at hnext
  split at hnext
  · cases hnext
  rename_i b tail hb
  obtain ⟨key', hkey, hlow, -, htyped⟩ | ⟨rfl, hescaped⟩ | ⟨-, htext⟩ := ofLead_cases b tail
  · cases hkey.symm.trans hnext
    obtain ⟨c, later, rfl, -, hlater⟩ := carries_low h hb hlow
    exact .inl ⟨later, List.suffix_cons _ _, hlater, fun text hkey => absurd hkey (htyped text)⟩
  · obtain ⟨c, later, rfl, hc, hlater⟩ := carries_low h hb (by decide)
    have hidle : key = .idle := skipEscaped_idle (congrArg Prod.fst (hescaped.symm.trans hnext))
    obtain rfl : c = '\x1b' := Char.toNat_inj.mp hc
    rcases skipEscaped_carries hlater (hescaped.symm.trans hnext) with ⟨last, hlast, hrest⟩ | ⟨c, last, rfl, hc⟩
    · refine .inl ⟨last, hlast.trans (List.suffix_cons _ _), hrest, fun text hkey => ?_⟩
      cases hidle.symm.trans hkey
    · exact .inr ⟨c, last, rfl, hc⟩
  · obtain ⟨c, later, bs, rfl, hbytes, hlater⟩ := carries_byte h hb
    obtain ⟨lead, more, hchar, hlength, -⟩ := Utf8.encodeChar_lead c
    cases hchar.symm.trans hbytes
    rw [htext] at hnext
    rcases htaken : nextBytes (Utf8.announced b) tail with ⟨e | taken, last⟩ <;>
      rw [htaken] at hnext
    · cases hnext
    · cases hnext
      obtain ⟨rfl, hrest⟩ := carries_bytes hlater hlength.symm htaken
      have hread : Utf8.decodeLossy (b :: taken) = [c] := by
        rw [← hbytes, ← Utf8.decodeLossy_encode [c], Utf8.encode, List.flatMap_singleton]
      refine .inl ⟨later, List.suffix_cons _ _, hrest, fun text hkey => ?_⟩
      obtain rfl := Key.typed.inj hkey
      rw [hread]
      exact List.cons_subset_cons _ (List.nil_subset _)

/-- Where an attempt is given up without a failure, the stream is at its end. -/
def Ends {α : Type} (attempt : Except ReadError α × List Event) : Prop :=
  ∀ reason, attempt.1 = .error (.abort reason) → attempt.2 = []

theorem nextByte_ends (events : List Event) : Ends (nextByte events) := by
  fun_induction nextByte events with
  | case1 => exact fun _ _ => rfl
  | case2 => exact fun _ h => by cases h
  | case3 _ ih => exact ih
  | case4 => exact fun _ h => by cases h

theorem nextBytes_ends (n : Nat) (events : List Event) : Ends (nextBytes n events) := by
  induction n generalizing events with
  | zero => exact fun _ h => by cases h
  | succ n ih =>
    have hfirst := nextByte_ends events
    unfold nextBytes
    generalize nextByte events = first at hfirst ⊢
    rcases first with ⟨e | b, rest⟩
    · intro reason h
      cases h
      exact hfirst reason rfl
    · have hothers := ih rest
      dsimp only
      generalize nextBytes n rest = others at hothers ⊢
      rcases others with ⟨e | bs, last⟩
      · intro reason h
        cases h
        exact hothers reason rfl
      · exact fun _ h => by cases h

theorem skipParameters_ends (events : List Event) : Ends (skipParameters events) := by
  fun_induction skipParameters events with
  | case1 => exact fun _ _ => rfl
  | case2 _ ih => exact ih
  | case3 => exact fun _ h => by cases h
  | case4 _ _ _ ih => exact ih
  | case5 => exact fun _ h => by cases h
  | case6 => exact fun _ h => by cases h

theorem skipEscaped_ends (events : List Event) : Ends (skipEscaped events) := by
  have hfirst := nextByte_ends events
  unfold skipEscaped
  generalize nextByte events = first at hfirst ⊢
  rcases first with ⟨e | b, rest⟩
  · intro reason h
    cases h
    exact hfirst reason rfl
  · dsimp only
    split
    · exact fun _ h => by cases h
    split
    · exact skipParameters_ends rest
    · exact fun _ h => by cases h

theorem next_ends (events : List Event) : Ends (next events) := by
  have hfirst := nextByte_ends events
  unfold next
  generalize nextByte events = first at hfirst ⊢
  rcases first with ⟨e | b, rest⟩
  · intro reason h
    cases h
    exact hfirst reason rfl
  · dsimp only
    obtain ⟨key, hkey, -⟩ | ⟨-, hescaped⟩ | ⟨-, htext⟩ := ofLead_cases b rest
    · rw [hkey]
      exact fun _ h => by cases h
    · rw [hescaped]
      exact skipEscaped_ends rest
    · rw [htext]
      have htaken := nextBytes_ends (Utf8.announced b) rest
      generalize nextBytes (Utf8.announced b) rest = taken at htaken ⊢
      rcases taken with ⟨e | bs, last⟩
      · intro reason h
        cases h
        exact htaken reason rfl
      · exact fun _ h => by cases h

end Key

namespace Console
open Key (Carries)

variable {σ : Type} [Sink σ] {setup : Setup} {line : Line} {console : Console σ} {cs : List Char}

/-- No character beyond ASCII stands right after an escape byte. -/
def Whole (cs : List Char) : Prop := ∀ c : Char, 0x80 ≤ c.toNat → ¬ ['\x1b', c] <:+: cs

theorem Whole.of_suffix {later : List Char} (h : Whole cs) (hlater : later <:+ cs) : Whole later :=
  fun c hc hwithin => h c hc (hwithin.trans hlater.isInfix)

theorem next_whole {events rest : List Event} {key : Key} (hcs : Carries events cs)
    (hwhole : Whole cs) (hnext : Key.next events = (.ok key, rest)) :
    ∃ later, later <:+ cs ∧ Carries rest later ∧ ∀ text, key = .typed text → text ⊆ cs := by
  rcases Key.next_carries hcs hnext with hcarries | ⟨c, later, rfl, hc⟩
  · exact hcarries
  · exact absurd (List.prefix_append ['\x1b', c] later).isInfix (hwhole c hc)

theorem readFrom_carries
    (hnames : ∀ word, ∀ name ∈ setup.candidates word, Utf8.replacement ∉ name.toList)
    (hline : Utf8.replacement ∉ line.before) (hcs : Carries console.events cs) (hwhole : Whole cs)
    (hplain : Utf8.replacement ∉ cs) {result : Except ReadError String} {after : Console σ}
    (h : console.readFrom setup line = (result, after)) :
    (∀ text, result = .ok text → Utf8.replacement ∉ text.toList) ∧
      ((∀ e, result ≠ .error (.io e)) → ∃ later, later <:+ cs ∧ Carries after.events later) := by
  -- the text that is still to come changes with each turn
  revert cs
  fun_induction readFrom setup line console with
  | case1 line console hnil =>
    intro cs hcs hwhole hplain
    cases h
    refine ⟨?_, fun _ => ⟨cs, List.suffix_rfl, hcs⟩⟩
    rintro _ ⟨⟩
  | case2 line console hne rest e hkey =>
    intro cs hcs hwhole hplain
    cases h
    refine ⟨?_, fun hheard => ?_⟩
    · rintro _ ⟨⟩
    cases e with
    | abort reason =>
      have hend : rest = [] := Key.next_ends console.events reason hkey
      exact ⟨[], List.nil_suffix, by rw [hend]; rfl⟩
    | io cause => exact absurd rfl (hheard cause)
  | case3 line console hne rest key hkey result hrespond =>
    intro cs hcs hwhole hplain
    cases h
    have hnext : Key.next console.events = (.ok key, rest) := Prod.ext hkey rfl
    obtain ⟨later, hlater, hrest, -⟩ := next_whole hcs hwhole hnext
    refine ⟨?_, fun _ => ⟨later, hlater, hrest⟩⟩
    rintro text rfl
    rcases Line.respond_finish hrespond with htext | ⟨reason, hreason⟩
    · cases htext
      rw [String.toList_ofList, Line.text, List.mem_reverse]
      exact hline
    · cases hreason
  | case4 line console hne rest key hkey next echo notices hrespond sink later e hemit =>
    intro cs hcs hwhole hplain
    obtain rfl : .error (.io e) = result := congrArg Prod.fst h
    refine ⟨?_, fun hheard => absurd rfl (hheard e)⟩
    rintro _ ⟨⟩
  | case5 line console hne rest key hkey next echo notices hrespond sink there hemit ih =>
    intro cs hcs hwhole hplain
    have hnext : Key.next console.events = (.ok key, rest) := Prod.ext hkey rfl
    obtain ⟨later, hlater, hrest, htyped⟩ := next_whole hcs hwhole hnext
    have hkept : Utf8.replacement ∉ next.before := by
      intro hin
      rcases Line.respond_brought hrespond hin with
        hbefore | ⟨text, rfl, hmem⟩ | ⟨name, hname, hmem⟩ | hfeed | hblank | ⟨htab, -⟩
      · exact hline hbefore
      · exact hplain (htyped text rfl hmem)
      · exact hnames _ name hname hmem
      · cases hfeed
      · cases hblank
      · cases htab
    obtain ⟨hresult, hstops⟩ := ih hkept h hrest (hwhole.of_suffix hlater)
      fun hin => hplain (hlater.subset hin)
    refine ⟨hresult, fun hheard => ?_⟩
    obtain ⟨last, hlast, hcarries⟩ := hstops hheard
    exact ⟨last, hlast.trans hlater, hcarries⟩

theorem readTimes_carries
    (hnames : ∀ word, ∀ name ∈ setup.candidates word, Utf8.replacement ∉ name.toList) (n : Nat)
    (hcs : Carries console.events cs) (hwhole : Whole cs) (hplain : Utf8.replacement ∉ cs)
    (hheard : ∀ m < n, ∀ e, (readLine setup (readTimes setup m console)).1 ≠ .error (.io e)) :
    ∃ later, later <:+ cs ∧ Carries (readTimes setup n console).events later := by
  induction n generalizing console cs with
  | zero => exact ⟨cs, List.suffix_rfl, hcs⟩
  | succ n ih =>
    have hempty : Utf8.replacement ∉ Line.empty.before := by decide
    obtain ⟨later, hlater, hrest⟩ := (readFrom_carries hnames hempty hcs
      hwhole hplain rfl).2 (hheard 0 n.succ_pos)
    obtain ⟨last, hlast, hcarries⟩ := ih hrest (hwhole.of_suffix hlater)
      (fun hin => hplain (hlater.subset hin)) fun m hm => hheard (m + 1) (Nat.succ_lt_succ hm)
    exact ⟨last, hlast.trans hlater, hcarries⟩

end Console

/-! ## What is left of a character -/

namespace Line

def strayed (l : Line) : Nat → Line
  | 0 => l
  | n + 1 => ⟨List.replicate (n + 1) Utf8.replacement ++ l.before, false, false⟩

theorem strayed_type (l : Line) (n : Nat) :
    (l.type [Utf8.replacement]).strayed n = l.strayed (n + 1) := by
  cases n with
  | zero => simp [strayed, type, Utf8.replacement]
  | succ n =>
    rw [strayed, strayed, List.replicate_succ' (n := n + 1), List.append_assoc]
    rfl

theorem strayed_before (l : Line) (n : Nat) :
    (l.strayed n).before = List.replicate n Utf8.replacement ++ l.before := by
  cases n <;> rfl

theorem strayed_escaped (l : Line) (n : Nat) :
    (l.strayed n).escaped = (l.escaped && decide (n = 0)) := by
  cases n <;> simp [strayed]

end Line

namespace Console

variable {σ : Type} [Sink σ] {P : Bytes → σ → Prop} {setup : Setup}

theorem readFrom_strays (hP : Sink.Takes P) {bs : Bytes}
    (hbs : ∀ b ∈ bs, Utf8.isContinuation b = true) (l : Line) (rest : List Event) {written : Bytes}
    {sink : σ} (hsink : P written sink) (notices : List Notice) :
    ∃ after, P (written ++ Utf8.encode (List.replicate bs.length Utf8.replacement)) after ∧
      readFrom setup l ⟨Keystroke.events bs ++ rest, sink, notices⟩ =
        readFrom setup (l.strayed bs.length) ⟨rest, after, notices⟩ := by
  induction bs generalizing l written sink with
  | nil => exact ⟨sink, by simpa [Utf8.encode] using hsink, rfl⟩
  | cons b bs ih =>
    rw [List.forall_mem_cons] at hbs
    have hlow : 0x80 ≤ b := by
      have hb := hbs.1
      simp only [Utf8.isContinuation, Bool.and_eq_true, decide_eq_true_eq] at hb
      exact hb.1
    have hdelete : b ≠ 0x7f := by
      rintro rfl
      exact absurd hlow (by decide)
    have hlength : Utf8.announced b = ([] : Bytes).length := Utf8.announced_continuation hbs.1
    have hnext := Keystroke.next_typed (UInt8.le_trans (by decide) hlow) hdelete hlength
      (Keystroke.events bs ++ rest)
    rw [Utf8.decodeLossy_continuation hbs.1] at hnext
    have hrespond : l.respond setup (.typed [Utf8.replacement]) =
        .edit (l.type [Utf8.replacement]) [[Utf8.replacement]] [] := rfl
    obtain ⟨middle, hmiddle, hread⟩ := readFrom_edit hP hsink hnext (by simp) hrespond notices
    obtain ⟨after, hafter, hrest⟩ := ih hbs.2 (l.type [Utf8.replacement]) hmiddle
    refine ⟨after, ?_, ?_⟩
    · rw [Utf8.encode_flatten, List.append_assoc, ← Utf8.encode_append] at hafter
      exact hafter
    · rw [List.append_nil, hrest, Line.strayed_type] at hread
      exact hread

/-- After an escape byte a character of one byte goes; of a longer one the first
byte goes, and as many replacement characters are typed as bytes are left. -/
theorem readFrom_alt (hP : Sink.Takes P) (setup : Setup) {c : Char} (hcontrol : 0x20 ≤ c.toNat)
    (hdelete : c.toNat ≠ 0x7f) (hbracket : c ≠ '[') (hletter : c ≠ 'O') (l : Line)
    (rest : List Event) {written : Bytes} {sink : σ} (hsink : P written sink)
    (notices : List Notice) :
    ∃ after,
      P (written ++ Utf8.encode (List.replicate (c.utf8Size - 1) Utf8.replacement)) after ∧
      readFrom setup l ⟨Keystroke.events (0x1b :: Utf8.encode [c]) ++ rest, sink, notices⟩ =
        readFrom setup ({ l with tabbed := false }.strayed (c.utf8Size - 1))
          ⟨rest, after, notices⟩ := by
  obtain ⟨b, bs, hbytes, -, hb⟩ := Utf8.encodeChar_lead c
  have hencode : Utf8.encode [c] = b :: bs := by rw [Utf8.encode, List.flatMap_singleton, hbytes]
  have hsize : c.utf8Size - 1 = bs.length := by
    rw [← Utf8.encode_length, hencode, List.length_cons, Nat.add_sub_cancel]
  have hprinted : 0x20 ≤ b := by
    rw [UInt8.le_iff_toNat_le]
    exact hb.elim (fun h => h ▸ hcontrol) (Nat.le_trans (by decide))
  -- a byte of ASCII stands for the character itself
  have hother : ∀ d : Char, d.toNat < 0x80 → c.toNat ≠ d.toNat → b ≠ UInt8.ofNat d.toNat := by
    rintro d hd hne rfl
    rw [Utf8.toNat_ofNat (by omega)] at hb
    omega
  have hintroducer : ¬ Keystroke.Introduces b := by
    rintro (rfl | rfl)
    · exact hother '[' (by decide) (fun h => hbracket (Char.toNat_inj.mp h)) rfl
    · exact hother 'O' (by decide) (fun h => hletter (Char.toNat_inj.mp h)) rfl
  have hnext : Key.next (Keystroke.events (0x1b :: Utf8.encode [c]) ++ rest) =
      (.ok .idle, Keystroke.events bs ++ rest) := by
    rw [hencode, Keystroke.events_cons, Keystroke.events_cons, List.cons_append, List.cons_append,
      Keystroke.next_escape]
    exact Keystroke.skipEscaped_single hprinted (hother '\x7f' (by decide) hdelete) hintroducer _
  have htail : ∀ d ∈ bs, Utf8.isContinuation d = true := by
    have h := Utf8.encodeChar_tail c
    rwa [hbytes] at h
  have hrespond : l.respond setup .idle = .edit { l with tabbed := false } [] [] := rfl
  obtain ⟨middle, hmiddle, hread⟩ := readFrom_edit hP hsink hnext (by simp) hrespond notices
  obtain ⟨after, hafter, hrest⟩ :=
    readFrom_strays hP htail { l with tabbed := false } rest hmiddle (notices ++ [])
  refine ⟨after, ?_, ?_⟩
  · rw [hsize]
    simpa using hafter
  · rw [hread, hrest, hsize, List.append_nil]

/-- Alt plus a key of one byte leaves the line as it is, and the echo; of a longer
one all bytes but the first are typed as replacement characters. Nothing else
brings such a character into a line when neither the text nor a name has it. -/
theorem readTimes_alt (hP : Sink.Takes P) (setup : Setup) :
    (∀ c : Char, 0x20 ≤ c.toNat → c.toNat ≠ 0x7f → c ≠ '[' → c ≠ 'O' →
      ∀ (l : Line) (rest : List Event) {written : Bytes} {sink : σ}, P written sink → ∀ notices,
      let strays := List.replicate (c.utf8Size - 1) Utf8.replacement
      (strays = [] ↔ c.toNat < 0x80) ∧
      ∃ next after, next.before = strays ++ l.before ∧
        next.escaped = (l.escaped && decide (c.toNat < 0x80)) ∧
        P (written ++ Utf8.encode strays) after ∧
        readFrom setup l ⟨Keystroke.events (0x1b :: Utf8.encode [c]) ++ rest, sink, notices⟩ =
          readFrom setup next ⟨rest, after, notices⟩) ∧
    ((∀ word, ∀ name ∈ setup.candidates word, Utf8.replacement ∉ name.toList) →
      ∀ (console : Console σ) (cs : List Char), Key.arrived console.events = Utf8.encode cs →
      Utf8.replacement ∉ cs →
      ∀ n, (∀ m < n, ∀ e, (readLine setup (readTimes setup m console)).1 ≠ .error (.io e)) →
      ∀ text, (readLine setup (readTimes setup n console)).1 = .ok text →
      Utf8.replacement ∈ text.toList → ∃ c : Char, 0x80 ≤ c.toNat ∧ ['\x1b', c] <:+: cs) := by
  constructor
  · intro c hcontrol hdelete hbracket hletter l rest written sink hsink notices strays
    have hsingle : c.utf8Size - 1 = 0 ↔ c.toNat < 0x80 := by
      have hpos := c.utf8Size_pos
      have hone : c.utf8Size = 1 ↔ c.toNat ≤ 127 :=
        Char.utf8Size_eq_one_iff.trans UInt32.le_iff_toNat_le
      omega
    obtain ⟨after, hafter, hread⟩ :=
      readFrom_alt hP setup hcontrol hdelete hbracket hletter l rest hsink notices
    refine ⟨(List.replicate_eq_nil_iff _).trans hsingle,
      { l with tabbed := false }.strayed (c.utf8Size - 1), after, Line.strayed_before _ _, ?_,
      hafter, hread⟩
    rw [Line.strayed_escaped, decide_eq_decide.mpr hsingle]
  · intro hnames console cs hcs hplain n hheard text htext hin
    by_contra hnone
    have hwhole : Whole cs := fun c hc hwithin => hnone ⟨c, hc, hwithin⟩
    obtain ⟨later, hlater, hrest⟩ := readTimes_carries hnames n hcs hwhole hplain hheard
    have hempty : Utf8.replacement ∉ Line.empty.before := by decide
    have hclean := (readFrom_carries hnames hempty hrest (hwhole.of_suffix hlater)
      (fun h => hplain (hlater.subset h)) rfl).1 text htext
    exact hclean hin

theorem readTimes_alt_accented :
    let setup : Setup := ⟨"$ ", fun _ => [], true⟩
    let typed := ['\x1b', 'é', '\r']
    let console : Console Recorder := ⟨Keystroke.events (Utf8.encode typed), Recorder.unlimited, []⟩
    Key.arrived console.events = Utf8.encode typed ∧ Utf8.replacement ∉ typed ∧
      (readLine setup (readTimes setup 0 console)).1 = .ok "\ufffd" ∧
      ∃ c : Char, 0x80 ≤ c.toNat ∧ ['\x1b', c] <:+: typed := by
  intro setup typed console
  obtain ⟨hkeys, hlines⟩ := readTimes_alt Recorder.takes setup
  have harrived : Key.arrived console.events = Utf8.encode typed := by decide
  obtain ⟨-, next, after, hbefore, hescaped, -, hread⟩ := hkeys 'é' (by decide) (by decide)
    (by decide) (by decide) .empty [.byte Key.carriageReturn] Recorder.unlimited_holds []
  have hreplaced : next.before = ['\ufffd'] := hbefore
  have hplain : next.escaped = false := hescaped
  have hfinish : next.respond setup .enter = .finish (.ok "\ufffd") := by
    simp [Line.respond, Line.text, hplain, hreplaced]
  have hline : (readLine setup (readTimes setup 0 console)).1 = .ok "\ufffd" :=
    congrArg Prod.fst (hread.trans (readFrom_finish rfl (by decide) hfinish []))
  refine ⟨harrived, by decide, hline, ?_⟩
  exact hlines (fun _ => List.forall_mem_nil _) console typed harrived (by decide) 0
    (fun _ hlt => absurd hlt (Nat.not_lt_zero _)) _ hline (by decide)

/-- The first byte of the letter goes with the escape byte, the second is typed. -/
theorem readLine_alt_accented :
    let setup : Setup := ⟨"$ ", fun _ => [], true⟩
    let typed := ['\x1b', 'é', '\r']
    let console : Console Recorder := ⟨Keystroke.events (Utf8.encode typed), Recorder.unlimited, []⟩
    Key.arrived console.events = Utf8.encode typed ∧ Utf8.replacement ∉ typed ∧
      (readLine setup console).1 = .ok "\ufffd" := by
  intro setup typed console
  obtain ⟨after, -, hread⟩ := readFrom_alt Recorder.takes setup (c := 'é') (by decide)
    (by decide) (by decide) (by decide) .empty [.byte Key.carriageReturn] Recorder.unlimited_holds []
  refine ⟨by decide, by decide, ?_⟩
  exact congrArg Prod.fst (hread.trans (readFrom_finish rfl (by decide) rfl []))

end Console

end LineShell
