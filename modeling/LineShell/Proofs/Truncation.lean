import LineShell.Proofs.Ascii
import LineShell.Proofs.Completing
import LineShell.Proofs.Keystroke
import LineShell.Proofs.Reading

/-!
# Characters cut short

A leading byte takes as many bytes as it announces, whatever they are. Where a
character is cut short, what comes after the cut is read with it as text: a
control byte there is typed and does nothing else. No other control byte becomes
text, but for a line feed that goes on with a line and a TAB that does not complete.
-/

set_option autoImplicit false

namespace LineShell

/-! ## What a key takes from the stream -/

namespace Key

def arrived : List Event → Bytes :=
  List.filterMap fun
    | .byte b => some b
    | _ => none

theorem arrived_append (a b : List Event) : arrived (a ++ b) = arrived a ++ arrived b :=
  List.filterMap_append

theorem nextByte_ok {events rest : List Event} {b : UInt8}
    (h : nextByte events = (.ok b, rest)) :
    ∃ idle, events = idle ++ .byte b :: rest ∧ arrived idle = [] := by
  fun_induction nextByte events with
  | case1 => cases h
  | case2 d tail =>
    cases h
    exact ⟨[], rfl, rfl⟩
  | case3 tail ih =>
    obtain ⟨idle, rfl, hidle⟩ := ih h
    exact ⟨.interrupted :: idle, rfl, hidle⟩
  | case4 e tail => cases h

theorem nextBytes_ok {n : Nat} {events rest : List Event} {bs : Bytes}
    (h : nextBytes n events = (.ok bs, rest)) :
    bs.length = n ∧ ∃ taken, events = taken ++ rest ∧ arrived taken = bs := by
  induction n generalizing events bs with
  | zero =>
    cases h
    exact ⟨rfl, [], rfl, rfl⟩
  | succ n ih =>
    simp only [nextBytes] at h
    split at h
    · cases h
    rename_i b middle hb
    split at h
    · cases h
    rename_i ds tail hds
    cases h
    obtain ⟨idle, rfl, hidle⟩ := nextByte_ok hb
    obtain ⟨hlength, taken, rfl, htaken⟩ := ih hds
    refine ⟨by rw [List.length_cons, hlength], idle ++ .byte b :: taken, by simp, ?_⟩
    rw [arrived_append, hidle, ← htaken]
    rfl

theorem nextByte_suffix (events : List Event) : (nextByte events).2 <:+ events := by
  fun_induction nextByte events with
  | case1 => exact List.suffix_rfl
  | case2 => exact List.suffix_cons _ _
  | case3 _ ih => exact ih.trans (List.suffix_cons _ _)
  | case4 => exact List.suffix_cons _ _

theorem nextBytes_suffix (n : Nat) (events : List Event) : (nextBytes n events).2 <:+ events := by
  induction n generalizing events with
  | zero => exact List.suffix_rfl
  | succ n ih =>
    have hfirst := nextByte_suffix events
    unfold nextBytes
    generalize nextByte events = first at hfirst ⊢
    rcases first with ⟨e | b, rest⟩
    · exact hfirst
    · have hothers := (ih rest).trans hfirst
      dsimp only
      split <;> simpa [*] using hothers

theorem skipParameters_suffix (events : List Event) : (skipParameters events).2 <:+ events := by
  fun_induction skipParameters events with
  | case1 => exact List.suffix_rfl
  | case2 _ ih => exact ih.trans (List.suffix_cons _ _)
  | case3 => exact List.suffix_cons _ _
  | case4 _ _ _ ih => exact ih.trans (List.suffix_cons _ _)
  | case5 => exact List.suffix_cons _ _
  | case6 => exact List.suffix_rfl

theorem skipEscaped_suffix (events : List Event) : (skipEscaped events).2 <:+ events := by
  have hfirst := nextByte_suffix events
  unfold skipEscaped
  rcases hb : nextByte events with ⟨e | b, rest⟩
  · rwa [hb] at hfirst
  · obtain ⟨idle, hevents, -⟩ := nextByte_ok hb
    rw [hb] at hfirst
    dsimp only
    split
    · exact ⟨idle, hevents.symm⟩
    split
    · exact (skipParameters_suffix rest).trans hfirst
    · exact hfirst

theorem ofLead_cases (b : UInt8) (events : List Event) :
    (∃ key, ofLead b events = (.ok key, events) ∧ b < 0x80 ∧ (key = .tab → b = horizontalTab) ∧
      ∀ text, key ≠ .typed text) ∨
    b = escape ∧ ofLead b events = skipEscaped events ∨
    0x20 ≤ b ∧ ofLead b events =
      ((nextBytes (Utf8.announced b) events).1.map fun bs => .typed (Utf8.decodeLossy (b :: bs)),
        (nextBytes (Utf8.announced b) events).2) := by
  have low : ∀ d : UInt8, d < 0x80 → b = d → b < 0x80 := by
    rintro d hd rfl
    exact hd
  unfold ofLead
  split
  · exact .inl ⟨_, rfl, low ctrlC (by decide) ‹_›, nofun, nofun⟩
  split
  · exact .inl ⟨_, rfl, low ctrlD (by decide) ‹_›, nofun, nofun⟩
  split
  · rename_i henter
    have hb : b < 0x80 := by
      rcases Bool.or_eq_true_iff.mp henter with h | h
      · exact low carriageReturn (by decide) (of_decide_eq_true h)
      · exact low lineFeed (by decide) (of_decide_eq_true h)
    exact .inl ⟨_, rfl, hb, nofun, nofun⟩
  split
  · exact .inl ⟨_, rfl, low delete (by decide) ‹_›, nofun, nofun⟩
  split
  · rename_i htab
    exact .inl ⟨_, rfl, low horizontalTab (by decide) htab, fun _ => htab, nofun⟩
  split
  · exact .inr (.inl ⟨‹_›, rfl⟩)
  split
  · exact .inl ⟨_, rfl, UInt8.lt_trans ‹_› (by decide), nofun, nofun⟩
  rename_i hcontrol
  refine .inr (.inr ⟨UInt8.not_lt.mp hcontrol, ?_⟩)
  rcases nextBytes (Utf8.announced b) events with ⟨e | bs, rest⟩
  · rfl
  · rfl

theorem ofLead_suffix (b : UInt8) (events : List Event) : (ofLead b events).2 <:+ events := by
  obtain ⟨key, hkey, -⟩ | ⟨-, hescaped⟩ | ⟨-, htext⟩ := ofLead_cases b events
  · exact ⟨[], congrArg Prod.snd hkey⟩
  · rw [hescaped]
    exact skipEscaped_suffix events
  · rw [htext]
    exact nextBytes_suffix _ events

theorem next_suffix (events : List Event) : (next events).2 <:+ events := by
  have hfirst := nextByte_suffix events
  unfold next
  generalize nextByte events = first at hfirst ⊢
  rcases first with ⟨e | b, rest⟩
  · exact hfirst
  · exact (ofLead_suffix b rest).trans hfirst

theorem skipParameters_idle {events : List Event} {key : Key}
    (h : (skipParameters events).1 = .ok key) : key = .idle := by
  fun_induction skipParameters events with
  | case1 => cases h
  | case2 _ ih => exact ih h
  | case3 => cases h
  | case4 _ _ _ ih => exact ih h
  | case5 => cases h; rfl
  | case6 => cases h; rfl

theorem skipEscaped_idle {events : List Event} {key : Key}
    (h : (skipEscaped events).1 = .ok key) : key = .idle := by
  unfold skipEscaped at h
  split at h; · cases h
  split at h; · cases h; rfl
  split at h; · exact skipParameters_idle h
  cases h
  rfl

theorem ofLead_typed {b : UInt8} {events rest : List Event} {text : List Char}
    (h : ofLead b events = (.ok (.typed text), rest)) : 0x20 ≤ b ∧
      ∃ bs, text = Utf8.decodeLossy (b :: bs) ∧
        nextBytes (Utf8.announced b) events = (.ok bs, rest) := by
  obtain ⟨key, hkey, -, -, htyped⟩ | ⟨-, hescaped⟩ | ⟨hcontrol, htext⟩ := ofLead_cases b events
  · cases h.symm.trans hkey
    exact absurd rfl (htyped text)
  · rw [hescaped] at h
    cases skipEscaped_idle (congrArg Prod.fst h)
  · rw [htext] at h
    refine ⟨hcontrol, ?_⟩
    rcases hbytes : nextBytes (Utf8.announced b) events with ⟨e | bs, tail⟩ <;> rw [hbytes] at h
    · cases h
    · cases h
      exact ⟨bs, rfl, rfl⟩

theorem next_typed {events rest : List Event} {text : List Char}
    (h : next events = (.ok (.typed text), rest)) : ∃ b bs taken,
      0x20 ≤ b ∧ bs.length = Utf8.announced b ∧ text = Utf8.decodeLossy (b :: bs) ∧
      events = taken ++ rest ∧ arrived taken = b :: bs := by
  unfold next at h
  split at h
  · cases h
  rename_i b tail hb
  obtain ⟨idle, rfl, hidle⟩ := nextByte_ok hb
  obtain ⟨hcontrol, bs, htext, hbs⟩ := ofLead_typed h
  obtain ⟨hlength, taken, rfl, htaken⟩ := nextBytes_ok hbs
  refine ⟨b, bs, idle ++ .byte b :: taken, hcontrol, hlength, htext, by simp, ?_⟩
  rw [arrived_append, hidle, ← htaken]
  rfl

end Key

/-! ## Control bytes in the line -/

/-- A byte among those that a leading byte before it took along. -/
def Swallowed (events : List Event) (b : UInt8) : Prop :=
  ∃ lead bs, lead :: bs <:+: Key.arrived events ∧ bs.length = Utf8.announced lead ∧ b ∈ bs

theorem Swallowed.of_suffix {events rest : List Event} {b : UInt8} (h : Swallowed rest b)
    (hrest : rest <:+ events) : Swallowed events b := by
  obtain ⟨lead, bs, hinfix, hlength, hb⟩ := h
  exact ⟨lead, bs, hinfix.trans (hrest.filterMap _).isInfix, hlength, hb⟩

def isControl (c : Char) : Bool := c.toNat < 0x20

theorem typed_control {events rest : List Event} {text : List Char} {c : Char}
    (h : Key.next events = (.ok (.typed text), rest)) (hmem : c ∈ text) (hc : isControl c) :
    Swallowed events (UInt8.ofNat c.toNat) := by
  obtain ⟨lead, bs, taken, hlead, hlength, rfl, rfl, htaken⟩ := Key.next_typed h
  have hlow : c.toNat < 0x20 := of_decide_eq_true hc
  have hbyte : (UInt8.ofNat c.toNat).toNat = c.toNat := Utf8.toNat_ofNat (by omega)
  have hin : UInt8.ofNat c.toNat ∈ lead :: bs := (Utf8.mem_decodeLossy (by omega) _).mp hmem
  have hne : UInt8.ofNat c.toNat ≠ lead := by
    rintro rfl
    rw [UInt8.le_iff_toNat_le, hbyte] at hlead
    exact absurd hlow (Nat.not_lt.mpr hlead)
  refine ⟨lead, bs, ?_, hlength, (List.mem_cons.mp hin).resolve_left hne⟩
  rw [Key.arrived_append, htaken]
  exact (List.prefix_append _ _).isInfix

namespace Line

/-- The characters of a line come from the line before, from a text that is typed
or from the names that complete the word before the cursor. Besides there are the
line feed of Enter, the blank of a completion and a TAB that does not complete. -/
theorem respond_brought {setup : Setup} {l next : Line} {key : Key} {echo : List (List Char)}
    {notices : List Notice} (h : l.respond setup key = .edit next echo notices) {c : Char}
    (hc : c ∈ next.before) :
    c ∈ l.before ∨ (∃ text, key = .typed text ∧ c ∈ text) ∨ Offered setup l c ∨
      c = '\n' ∨ c = ' ' ∨ c = '\t' ∧ setup.completing = false := by
  cases key with
  | typed text =>
    cases h
    rcases List.mem_append.mp hc with htext | hbefore
    · exact .inr (.inl ⟨text, rfl, List.mem_reverse.mp htext⟩)
    · exact .inl hbefore
  | enter =>
    unfold respond at h
    dsimp only at h
    split at h
    · cases h
      rcases List.mem_cons.mp hc with rfl | hbefore
      · exact .inr (.inr (.inr (.inl rfl)))
      · exact .inl hbefore
    · cases h
  | erase =>
    cases h
    exact .inl (List.mem_of_mem_tail hc)
  | tab =>
    unfold respond at h
    dsimp only at h
    split at h
    · obtain ⟨noted, ⟨hbell, -⟩ | ⟨rest, hrest, hoffered, -⟩ | ⟨names, hlist, -⟩⟩ :=
        l.complete_cases setup
      · rw [hbell] at h
        cases h
        exact .inl hc
      · rw [hrest] at h
        cases h
        rcases List.mem_append.mp hc with htext | hbefore
        · rcases hoffered c (List.mem_reverse.mp htext) with hblank | hname
          · exact .inr (.inr (.inr (.inr (.inl hblank))))
          · exact .inr (.inr (.inl hname))
        · exact .inl hbefore
      · rw [hlist] at h
        cases h
        exact .inl hc
    · rename_i hoff
      cases h
      rcases List.mem_append.mp hc with htab | hbefore
      · exact .inr (.inr (.inr (.inr (.inr ⟨by simpa using htab, by simpa using hoff⟩))))
      · exact .inl hbefore
  | abort reason => cases h
  | idle =>
    cases h
    exact .inl hc

theorem respond_finish {setup : Setup} {l : Line} {key : Key} {result : Except ReadError String}
    (h : l.respond setup key = .finish result) :
    result = .ok (String.ofList l.text) ∨ ∃ reason, result = .error (.abort reason) := by
  cases key with
  | enter =>
    unfold respond at h
    dsimp only at h
    split at h
    · cases h
    · cases h
      exact .inl rfl
  | abort reason =>
    cases h
    exact .inr ⟨reason, rfl⟩
  | tab =>
    obtain ⟨next, echo, notices, hedit⟩ := l.respond_tab setup
    cases hedit.symm.trans h
  | typed text => cases h
  | erase => cases h
  | idle => cases h

end Line

namespace Console

variable {σ : Type} [Sink σ]

theorem readFrom_suffix (setup : Setup) (line : Line) (console : Console σ) :
    (console.readFrom setup line).2.events <:+ console.events := by
  fun_induction readFrom setup line console with
  | case1 => exact List.suffix_rfl
  | case2 => exact Key.next_suffix _
  | case3 => exact Key.next_suffix _
  | case4 => exact Key.next_suffix _
  | case5 _ _ _ _ _ _ _ _ _ _ _ _ _ ih => exact ih.trans (Key.next_suffix _)

theorem leads {lead : UInt8} (h : Utf8.announced lead ≠ 0) : 0x20 ≤ lead ∧ lead ≠ 0x7f := by
  have hhigh := Utf8.announced_high h
  refine ⟨UInt8.le_trans (by decide) hhigh, ?_⟩
  rintro rfl
  exact absurd hhigh (by decide)

/-- A leading byte takes the bytes that it announces from wherever reading has
come to, and reading goes on after them. They are typed: those of ASCII are
characters of the text, control bytes like others. -/
theorem readFrom_truncated {P : Bytes → σ → Prop} (hP : Sink.Takes P) {lead : UInt8} {bs : Bytes}
    (hlength : Utf8.announced lead = bs.length) (hbs : bs ≠ []) (setup : Setup) (line : Line)
    {written : Bytes} {sink : σ} (hsink : P written sink) (rest : List Event)
    (notices : List Notice) :
    let text := Utf8.decodeLossy (lead :: bs)
    (∃ after, P (written ++ Utf8.encode text) after ∧
      readFrom setup line ⟨Keystroke.events (lead :: bs) ++ rest, sink, notices⟩ =
        readFrom setup (line.type text) ⟨rest, after, notices⟩) ∧
      ∀ c, c.toNat < 0x80 → (c ∈ text ↔ UInt8.ofNat c.toNat ∈ bs) := by
  intro text
  have hleads : Utf8.announced lead ≠ 0 := by simpa [hlength] using hbs
  obtain ⟨hcontrol, hdelete⟩ := leads hleads
  have hnext := Keystroke.next_typed hcontrol hdelete hlength rest
  have hrespond : line.respond setup (.typed text) = .edit (line.type text) [text] [] := rfl
  obtain ⟨after, hafter, hread⟩ := readFrom_edit hP hsink hnext (by simp) hrespond notices
  refine ⟨⟨after, by simpa using hafter, by simpa using hread⟩, fun c hc => ?_⟩
  have hbeyond : 0x80 ≤ lead.toNat :=
    Nat.le_trans (by decide) (UInt8.le_iff_toNat_le.mp (Utf8.announced_high hleads))
  rw [Utf8.mem_decodeLossy hc, List.mem_cons]
  exact or_iff_right (Utf8.ne_of_beyond hc hbeyond)

theorem readFrom_truncated_enter :
    let setup : Setup := ⟨"$ ", fun _ => [], true⟩
    let text := Utf8.decodeLossy [0xe2, 0x82, 0x0d]
    ∃ after, readFrom setup .empty
        ⟨Keystroke.events [0xe2, 0x82, 0x0d] ++ [.byte 0x78, .byte 0x0d], Recorder.unlimited, []⟩ =
      readFrom setup (Line.empty.type text) ⟨[.byte 0x78, .byte 0x0d], after, []⟩ ∧
      Recorder.Holds (Utf8.encode text) after ∧ '\r' ∈ text := by
  intro setup text
  have hlength : Utf8.announced 0xe2 = ([0x82, 0x0d] : Bytes).length := rfl
  obtain ⟨⟨after, hafter, hread⟩, htext⟩ := readFrom_truncated Recorder.takes hlength
    (by decide) setup .empty Recorder.unlimited_holds [.byte 0x78, .byte 0x0d] []
  exact ⟨after, hread, hafter, (htext '\r' (by decide)).mpr (by decide)⟩

/-- A byte that is no continuation is not read as it is at the start of a
keystroke: after a leading byte, Ctrl-C is typed. -/
theorem readLine_swallowed :
    let reading := fun bs : Bytes => (Console.readLine ⟨"$ ", fun _ => [], true⟩
      ⟨Keystroke.events bs, Recorder.unlimited, []⟩).1
    Utf8.announced 0xc3 = 1 ∧ Utf8.isContinuation 0x03 = false ∧
      reading [0x03, 0x78, 0x0d] = .error (.abort .interrupt) ∧
      reading [0xc3, 0x03, 0x78, 0x0d] = .ok "\ufffd\x03x" := by
  intro reading
  have hinterrupt : Key.next (Keystroke.events [0x03, 0x78, 0x0d]) =
      (.ok (.abort .interrupt), Keystroke.events [0x78, 0x0d]) := rfl
  have hlength : Utf8.announced 0xc3 = ([0x03] : Bytes).length := rfl
  have hcut := Keystroke.next_typed (by decide) (by decide) hlength (Keystroke.events [0x78, 0x0d])
  have hletter := Keystroke.next_char (c := 'x') (by decide) (Keystroke.events [0x0d])
  have henter : Key.next (Keystroke.events [0x0d]) = (.ok .enter, []) := rfl
  refine ⟨rfl, rfl, ?_, ?_⟩
  · exact congrArg Prod.fst (readFrom_finish hinterrupt (by decide) rfl [])
  · obtain ⟨first, hfirst, hread⟩ := readFrom_edit Recorder.takes Recorder.unlimited_holds
      hcut (by decide) rfl []
    obtain ⟨second, -, hread'⟩ := readFrom_edit Recorder.takes hfirst hletter (by decide) rfl []
    have hlossy : Utf8.decodeLossy [0xc3, 0x03] = ['\ufffd', '\x03'] := by decide +kernel
    have hfinish : Line.respond ⟨"$ ", fun _ => [], true⟩
        ((Line.empty.type (Utf8.decodeLossy [0xc3, 0x03])).type ['x']) .enter =
        .finish (.ok "\ufffd\x03x") := by
      rw [hlossy]
      rfl
    exact congrArg Prod.fst (hread.trans (hread'.trans
      (readFrom_finish henter (by decide) hfinish [])))

end Console

end LineShell
