import LineShell.Proofs.Truncation
import Mathlib.Data.List.Basic
import Mathlib.Data.List.Induction

/-!
# Line feeds on the terminal

A terminal in raw mode needs a carriage return before every line feed. What is
echoed has it everywhere but where a list of names is drawn below a line that
goes on in a new row: the line is drawn again as it is, its line feeds after the
backslashes that were typed.
-/

set_option autoImplicit false

namespace LineShell

/-! ## One element after another -/

section EachAfter

variable {α : Type} {x y : α} {a b : List α}

def EachAfter (y x : α) (l : List α) : Prop :=
  ∀ before after, l = before ++ x :: after → before.getLast? = some y

namespace EachAfter

theorem of_notMem (h : x ∉ a) : EachAfter y x a := by
  rintro before after rfl
  simp at h

theorem append (ha : EachAfter y x a) (hb : EachAfter y x b) : EachAfter y x (a ++ b) := by
  intro before after hsplit
  rcases List.append_eq_append_iff.mp hsplit with ⟨gap, rfl, hrest⟩ | ⟨gap, rfl, hrest⟩
  · have hgap := hb gap after hrest
    rw [List.getLast?_append, hgap]
    rfl
  · cases gap with
    | nil => cases hb [] after hrest.symm
    | cons d gap =>
      cases hrest
      exact ha before gap rfl

theorem of_append_left (h : EachAfter y x (a ++ b)) : EachAfter y x a := by
  rintro before after rfl
  exact h before (after ++ b) (by simp)

theorem concat_iff : EachAfter y x (a ++ [x]) ↔ EachAfter y x a ∧ a.getLast? = some y := by
  refine ⟨fun h => ⟨h.of_append_left, h a [] rfl⟩, fun ⟨ha, hlast⟩ before after hsplit => ?_⟩
  rcases List.append_eq_append_iff.mp hsplit with ⟨gap, rfl, hrest⟩ | ⟨gap, rfl, hrest⟩
  · cases gap with
    | nil => simpa using hlast
    | cons d gap => simp at hrest
  · cases gap with
    | nil => simpa using hlast
    | cons d gap =>
      cases hrest
      exact ha before gap rfl

theorem not_of_infix {z : α} (hz : z ≠ y) (h : [z, x] <:+: a) : ¬ EachAfter y x a := by
  obtain ⟨before, after, rfl⟩ := h
  intro heach
  have hlast := heach (before ++ [z]) after (by simp)
  rw [List.getLast?_concat, Option.some.injEq] at hlast
  exact hz hlast

end EachAfter

end EachAfter

namespace Utf8

theorem mem_encode {c : Char} (hc : c.toNat < 0x80) (cs : List Char) :
    UInt8.ofNat c.toNat ∈ encode cs ↔ c ∈ cs := by
  rw [← mem_decodeLossy hc, decodeLossy_encode]

theorem encode_ascii {c : Char} (hc : c.toNat < 0x80) : encode [c] = [UInt8.ofNat c.toNat] := by
  have hlow : c.val.toNat ≤ 0x7f := Nat.le_of_lt_succ hc
  rw [encode, List.flatMap_singleton, String.utf8EncodeChar]
  exact if_pos hlow

theorem encode_getLast? {c : Char} (hc : c.toNat < 0x80) (cs : List Char) :
    (encode cs).getLast? = some (UInt8.ofNat c.toNat) ↔ cs.getLast? = some c := by
  induction cs using List.reverseRecOn with
  | nil => simp [encode]
  | append_singleton cs d _ =>
    obtain ⟨b, bs, hbytes, -⟩ := encodeChar_lead d
    have hne : encode [d] ≠ [] := by simp [encode, hbytes]
    rw [encode_append, List.getLast?_append_of_ne_nil _ hne, List.getLast?_concat, Option.some_inj]
    constructor
    · intro h
      have hmem := (mem_encode hc [d]).mp (List.mem_of_getLast? h)
      exact (List.mem_singleton.mp hmem).symm
    · rintro rfl
      rw [encode_ascii hc]
      rfl

theorem encode_eachAfter {c d : Char} (hc : c.toNat < 0x80) (hd : d.toNat < 0x80)
    (cs : List Char) :
    EachAfter (UInt8.ofNat c.toNat) (UInt8.ofNat d.toNat) (encode cs) ↔ EachAfter c d cs := by
  induction cs using List.reverseRecOn with
  | nil => exact ⟨fun _ => .of_notMem (by simp), fun _ => .of_notMem (by simp [encode])⟩
  | append_singleton cs e ih =>
    rw [encode_append]
    by_cases he : e = d
    · rw [he, encode_ascii hd, EachAfter.concat_iff, EachAfter.concat_iff, ih, encode_getLast? hc]
    · have hother : d ∉ [e] := by simpa using Ne.symm he
      have hbytes : UInt8.ofNat d.toNat ∉ encode [e] := mt (mem_encode hd [e]).mp hother
      exact ⟨fun h => (ih.mp h.of_append_left).append (.of_notMem hother),
        fun h => (ih.mpr h.of_append_left).append (.of_notMem hbytes)⟩

end Utf8

/-! ## The line feeds of a line -/

namespace Line

/-- The line feeds of a line come after backslashes, and so will the next one. -/
structure Continued (l : Line) : Prop where
  feeds : EachAfter '\\' '\n' l.text
  escaped : l.escaped = true → l.text.getLast? = some '\\'

theorem empty_continued : Continued empty := ⟨.of_notMem (by decide), nofun⟩

theorem endsEscaped_last {before : List Char} (h : endsEscaped before = true) :
    before.reverse.getLast? = some '\\' := by
  cases before with
  | nil => cases h
  | cons c before =>
    by_cases hc : c = '\\'
    · simp [hc]
    · simp [endsEscaped, hc] at h

variable {setup : Setup} {l : Line}

namespace Continued

theorem type (h : l.Continued) {text : List Char} (htext : '\n' ∉ text) :
    (l.type text).Continued := by
  have hsplit : (l.type text).text = l.text ++ text := by simp [Line.type, Line.text]
  refine ⟨hsplit ▸ h.feeds.append (.of_notMem htext), fun hescaped => ?_⟩
  have hbackslash : text = ['\\'] := by
    simp only [Line.type, Bool.and_eq_true, decide_eq_true_eq] at hescaped
    exact hescaped.1
  rw [hsplit, hbackslash, List.getLast?_concat]

theorem append (h : l.Continued) {text : List Char} (htext : '\n' ∉ text) :
    (l.append text).Continued := by
  have hsplit : (l.append text).text = l.text ++ text := by simp [Line.append, Line.text]
  exact ⟨hsplit ▸ h.feeds.append (.of_notMem htext), endsEscaped_last⟩

theorem enter (h : l.Continued) (hescaped : l.escaped = true) :
    Continued ⟨'\n' :: l.before, false, false⟩ := by
  have hsplit : (⟨'\n' :: l.before, false, false⟩ : Line).text = l.text ++ ['\n'] := by
    simp [Line.text]
  constructor
  · rw [hsplit, EachAfter.concat_iff]
    exact ⟨h.feeds, h.escaped hescaped⟩
  · intro hnone
    cases hnone

theorem erase (h : l.Continued) : Continued ⟨l.before.tail, endsEscaped l.before.tail, false⟩ := by
  refine ⟨?_, endsEscaped_last⟩
  have hfeeds := h.feeds
  cases hbefore : l.before with
  | nil => exact .of_notMem (by simp [Line.text])
  | cons c before =>
    have hsplit : l.text = before.reverse ++ [c] := by simp [Line.text, hbefore]
    rw [hsplit] at hfeeds
    exact hfeeds.of_append_left

end Continued

structure OneRow (setup : Setup) : Prop where
  prompt : '\n' ∉ setup.prompt.toList
  names : ∀ word, ∀ name ∈ setup.candidates word, '\n' ∉ name.toList

end Line

/-! ## What a reading draws -/

def Line.Redrawn (setup : Setup) (step : Line × Key) : Prop :=
  step.2 = .tab ∧ step.1.lists setup = true ∧ '\n' ∈ step.1.text

/-- The echo of some keys, each with the line that it meets: a line feed lacks its
carriage return just where a line with a line feed is drawn again. -/
structure Returns (setup : Setup) (steps : List (Line × Key)) (echo : List Char) : Prop where
  kept : (∀ step ∈ steps, ¬ Line.Redrawn setup step) → EachAfter '\r' '\n' echo
  lost : ∀ step ∈ steps, Line.Redrawn setup step → ['\\', '\n'] <:+: echo

namespace Returns

variable {setup : Setup} {steps more : List (Line × Key)} {echo rest : List Char}

theorem nil : Returns setup [] [] := ⟨fun _ => .of_notMem (by simp), by simp⟩

theorem append (h : Returns setup steps echo) (h' : Returns setup more rest) :
    Returns setup (steps ++ more) (echo ++ rest) := by
  constructor
  · intro hsteps
    rw [List.forall_mem_append] at hsteps
    exact (h.kept hsteps.1).append (h'.kept hsteps.2)
  · intro step hstep hdrawn
    rcases List.mem_append.mp hstep with hfirst | hsecond
    · exact (h.lost step hfirst hdrawn).trans List.infix_append_left
    · exact (h'.lost step hsecond hdrawn).trans List.infix_append_right

theorem iff (h : Returns setup steps echo) :
    EachAfter '\r' '\n' echo ↔ ∀ step ∈ steps, ¬ Line.Redrawn setup step :=
  ⟨fun heach step hstep hdrawn =>
    EachAfter.not_of_infix (by decide) (h.lost step hstep hdrawn) heach, h.kept⟩

theorem of_each {line : Line} {key : Key} (hecho : EachAfter '\r' '\n' echo)
    (h : ¬ Line.Redrawn setup (line, key)) : Returns setup [(line, key)] echo := by
  refine ⟨fun _ => hecho, fun step hstep hdrawn => ?_⟩
  rw [List.mem_singleton.mp hstep] at hdrawn
  exact absurd hdrawn h

end Returns

namespace Line

variable {setup : Setup} {l next : Line} {key : Key} {echo : List (List Char)}
  {notices : List Notice}

theorem newline_each : EachAfter '\r' '\n' newline :=
  (EachAfter.concat_iff (a := ['\r'])).mpr ⟨.of_notMem (by decide), rfl⟩

theorem Continued.backslash (h : l.Continued) (hfeed : '\n' ∈ l.text) : ['\\', '\n'] <:+: l.text := by
  obtain ⟨before, after, hsplit⟩ := List.append_of_mem hfeed
  obtain ⟨start, hstart⟩ := List.getLast?_eq_some_iff.mp (h.feeds before after hsplit)
  exact ⟨start, after, by rw [hsplit, hstart]; simp⟩

theorem returns_listing (hrow : OneRow setup) (hline : l.Continued) {names : List Char}
    (hnames : '\n' ∉ names) (hlists : l.lists setup = true) :
    Returns setup [(l, .tab)]
      [newline, names, newline, setup.prompt.toList, l.text].flatten := by
  constructor
  · intro hsteps
    have htext : '\n' ∉ l.text := fun hfeed =>
      hsteps (l, .tab) (List.mem_singleton_self _) ⟨rfl, hlists, hfeed⟩
    have htail : EachAfter '\r' '\n' (setup.prompt.toList ++ l.text) :=
      (EachAfter.of_notMem hrow.prompt).append (.of_notMem htext)
    simpa using newline_each.append ((EachAfter.of_notMem hnames).append (newline_each.append htail))
  · rintro step hstep ⟨-, -, hfeed⟩
    rw [List.mem_singleton.mp hstep] at hfeed
    have hlast : l.text <:+: [newline, names, newline, setup.prompt.toList, l.text].flatten :=
      List.infix_of_mem_flatten (by simp)
    exact (hline.backslash hfeed).trans hlast

/-- One key keeps what is known of the line, and its echo is as it should be but
for a line that is drawn again. -/
theorem respond_returns (hcompleting : setup.completing = true) (hrow : OneRow setup)
    (hline : l.Continued) (hkey : ∀ text, key = .typed text → '\n' ∉ text)
    (h : l.respond setup key = .edit next echo notices) :
    next.Continued ∧ Returns setup [(l, key)] echo.flatten := by
  cases key with
  | typed text =>
    cases h
    have htext := hkey text rfl
    exact ⟨hline.type htext, .of_each (.of_notMem (by simpa using htext)) (by simp [Redrawn])⟩
  | enter =>
    unfold respond at h
    dsimp only at h
    split at h
    · rename_i hescaped
      cases h
      exact ⟨hline.enter hescaped, .of_each newline_each (by simp [Redrawn])⟩
    · cases h
  | erase =>
    cases h
    refine ⟨hline.erase, .of_each (.of_notMem ?_) (by simp [Redrawn])⟩
    split <;> decide
  | tab =>
    have hnames : ∀ c, Offered setup l c → c ≠ '\n' := by
      rintro c ⟨name, hname, hc⟩ rfl
      exact hrow.names _ name hname hc
    have htab : l.respond setup .tab = complete setup l := if_pos hcompleting
    rw [htab] at h
    obtain ⟨noted, ⟨hbell, hlists⟩ | ⟨rest, hrest, hoffered, hlists⟩ |
      ⟨names, hlist, hoffered, hlists⟩⟩ := l.complete_cases setup
    · cases hbell.symm.trans h
      exact ⟨⟨hline.feeds, hline.escaped⟩,
        .of_each (.of_notMem (by decide)) (by simp [Redrawn, hlists])⟩
    · cases hrest.symm.trans h
      have hplain : '\n' ∉ rest := by
        intro hfeed
        rcases hoffered '\n' hfeed with hblank | hname
        · cases hblank
        · exact hnames '\n' hname rfl
      exact ⟨hline.append hplain,
        .of_each (.of_notMem (by simpa using hplain)) (by simp [Redrawn, hlists])⟩
    · cases hlist.symm.trans h
      have hplain := forall_listing (P := (· ≠ '\n')) (by decide)
        fun name hname c hc => hnames c (hoffered name hname c hc)
      exact ⟨hline, returns_listing hrow hline (fun hfeed => hplain _ hfeed rfl) hlists⟩
  | abort reason => cases h
  | idle =>
    cases h
    exact ⟨⟨hline.feeds, hline.escaped⟩, .of_each (.of_notMem (by simp)) (by simp [Redrawn])⟩

end Line

namespace Console

/-- The keys of a reading up to the one that ends it, each with the line that it meets. -/
def course (setup : Setup) (line : Line) (events : List Event) : List (Line × Key) :=
  if _h : events = [] then []
  else
    match (Key.next events).1 with
    | .error _ => []
    | .ok key =>
      match line.respond setup key with
      | .finish _ => []
      | .edit next _ _ => (line, key) :: course setup next (Key.next events).2
termination_by events.length
decreasing_by exact Key.next_length _h

variable {σ : Type} [Sink σ]

def readTimes (setup : Setup) : Nat → Console σ → Console σ
  | 0, console => console
  | n + 1, console => readTimes setup n (console.readLine setup).2

def courses (setup : Setup) : Nat → Console σ → List (Line × Key)
  | 0, _ => []
  | n + 1, console =>
    course setup .empty console.events ++ courses setup n (console.readLine setup).2

section Readings

variable {setup : Setup} {line next : Line} {events rest : List Event} {key : Key}
  {console : Console σ} {P : Bytes → σ → Prop} {written : Bytes}

theorem course_edit {echo : List (List Char)} {notices : List Notice} (hne : events ≠ [])
    (hnext : Key.next events = (.ok key, rest))
    (hrespond : line.respond setup key = .edit next echo notices) :
    course setup line events = (line, key) :: course setup next rest := by
  rw [course, dif_neg hne]
  simp only [hnext, hrespond]

theorem course_finish {result : Except ReadError String} (hne : events ≠ [])
    (hnext : Key.next events = (.ok key, rest))
    (hrespond : line.respond setup key = .finish result) : course setup line events = [] := by
  rw [course, dif_neg hne]
  simp only [hnext, hrespond]

/-- A reading keeps to what its keys do, one after another. -/
theorem readFrom_returns (hP : Sink.Takes P) (hcompleting : setup.completing = true)
    (hrow : Line.OneRow setup) (hline : line.Continued)
    (hvalid : ¬ Swallowed console.events Key.lineFeed) (hsink : P written console.sink)
    {result : Except ReadError String} {after : Console σ}
    (h : console.readFrom setup line = (result, after)) :
    ∃ echo, P (written ++ Utf8.encode echo) after.sink ∧
      Returns setup (course setup line console.events) echo := by
  have hnothing {written : Bytes} {sink : σ} (h : P written sink) :
      P (written ++ Utf8.encode []) sink := by
    simpa [Utf8.encode] using h
  revert written
  fun_induction readFrom setup line console with
  | case1 line console hnil =>
    intro written hsink
    cases h
    refine ⟨[], hnothing hsink, ?_⟩
    rw [course, dif_pos hnil]
    exact .nil
  | case2 line console hne rest e hkey | case3 line console hne rest key hkey result hrespond =>
    intro written hsink
    cases h
    refine ⟨[], hnothing hsink, ?_⟩
    rw [course, dif_neg hne]
    simp only [*]
    exact .nil
  | case4 line console hne rest key hkey next echo notices hrespond sink later e hemit =>
    intro written hsink
    obtain ⟨taken, hwritten, -⟩ := hP.emit (echo.map Utf8.encode) hsink
    cases hemit.symm.trans hwritten
  | case5 line console hne rest key hkey next echo notices hrespond sink later hemit ih =>
    intro written hsink
    have hnext : Key.next console.events = (.ok key, rest) := Prod.ext hkey rfl
    have htyped : ∀ text, key = .typed text → '\n' ∉ text := by
      rintro text rfl hfeed
      exact hvalid (typed_control hnext hfeed rfl)
    obtain ⟨hnextLine, hstep⟩ := Line.respond_returns hcompleting hrow hline htyped hrespond
    obtain ⟨taken, hwritten, htaken⟩ := hP.emit (echo.map Utf8.encode) hsink
    cases hemit.symm.trans hwritten
    rw [Utf8.encode_flatten] at htaken
    obtain ⟨more, hmore, hreturns⟩ := ih hnextLine
      (fun hswallowed => hvalid (hswallowed.of_suffix (Key.next_suffix console.events))) h htaken
    refine ⟨echo.flatten ++ more, ?_, ?_⟩
    · rwa [Utf8.encode_append, ← List.append_assoc]
    · rw [course_edit hne hnext hrespond]
      exact hstep.append hreturns

theorem readTimes_returns (hP : Sink.Takes P) (hcompleting : setup.completing = true)
    (hrow : Line.OneRow setup) (n : Nat) (hvalid : ¬ Swallowed console.events Key.lineFeed)
    (hsink : P written console.sink) :
    ∃ echo, P (written ++ Utf8.encode echo) (readTimes setup n console).sink ∧
      Returns setup (courses setup n console) echo := by
  induction n generalizing console written with
  | zero =>
    refine ⟨[], ?_, .nil⟩
    simpa [Utf8.encode, readTimes] using hsink
  | succ n ih =>
    obtain ⟨echo, htaken, hreturns⟩ :=
      readFrom_returns hP hcompleting hrow Line.empty_continued hvalid hsink rfl
    obtain ⟨more, hmore, hothers⟩ := ih
      (fun hswallowed => hvalid (hswallowed.of_suffix (readFrom_suffix setup .empty console))) htaken
    refine ⟨echo ++ more, ?_, hreturns.append hothers⟩
    rwa [Utf8.encode_append, ← List.append_assoc]

theorem not_swallowed {events : List Event} {cs : List Char}
    (hvalid : Key.arrived events = Utf8.encode cs) : ¬ Swallowed events Key.lineFeed := by
  rintro ⟨lead, bs, hinfix, hlength, hfeed⟩
  rw [hvalid] at hinfix
  have hcontinues := Utf8.encode_announced hinfix hlength _ hfeed
  cases hcontinues

/-- Whatever is typed, in as many readings as there are: every line feed that is
echoed has its carriage return, unless a list of names was drawn over a line
with a line feed in it. -/
theorem readTimes_lineFeeds (hcompleting : setup.completing = true) (hrow : Line.OneRow setup)
    {events : List Event} {cs : List Char} (hvalid : Key.arrived events = Utf8.encode cs) (n : Nat) :
    let console : Console Recorder := ⟨events, Recorder.unlimited, []⟩
    EachAfter Key.carriageReturn Key.lineFeed (readTimes setup n console).sink.kept.bytes ↔
      ∀ step ∈ courses setup n console, ¬ Line.Redrawn setup step := by
  intro console
  have htyped : ¬ Swallowed console.events Key.lineFeed := not_swallowed hvalid
  have hnothing : Recorder.Holds [] console.sink := Recorder.unlimited_holds
  obtain ⟨echo, hwritten, hreturns⟩ :=
    readTimes_returns Recorder.takes hcompleting hrow n htyped hnothing
  rw [hwritten.2, ← hreturns.iff]
  exact Utf8.encode_eachAfter (c := '\r') (d := '\n') (by decide) (by decide) echo

instance (step : Line × Key) : Decidable (Line.Redrawn setup step) :=
  inferInstanceAs (Decidable (_ ∧ _ ∧ _))

theorem readTimes_lineFeeds_listing :
    let setup : Setup := ⟨"$ ", fun _ => ["cat", "cd"], true⟩
    let typed := ['c', '\t', '\t', '\\', '\r', 'x', '\r']
    let console : Console Recorder := ⟨Keystroke.events (Utf8.encode typed), Recorder.unlimited, []⟩
    setup.completing = true ∧ Line.OneRow setup ∧
      Key.arrived console.events = Utf8.encode typed ∧
      EachAfter Key.carriageReturn Key.lineFeed (readTimes setup 1 console).sink.kept.bytes := by
  intro setup typed console
  have hnames : ∀ name ∈ ["cat", "cd"], '\n' ∉ name.toList := by decide
  have hrow : Line.OneRow setup := ⟨by decide, fun _ => hnames⟩
  have hvalid : Key.arrived console.events = Utf8.encode typed := by decide
  refine ⟨rfl, hrow, hvalid, (readTimes_lineFeeds rfl hrow hvalid 1).mpr ?_⟩
  rw [courses, courses, List.append_nil]
  repeat rw [course_edit (by decide) rfl rfl]
  rw [course_finish (by decide) rfl rfl]
  decide +kernel

/-- Names are listed when the line has come to a second row: the line feed in it
is echoed without its carriage return. -/
theorem readTimes_redrawn :
    let setup : Setup := ⟨"$ ", fun _ => ["echo", "exit"], true⟩
    let typed := ['a', '\\', '\r', 'e', '\t', '\t', '\r']
    let console : Console Recorder := ⟨Keystroke.events (Utf8.encode typed), Recorder.unlimited, []⟩
    setup.completing = true ∧ Line.OneRow setup ∧
      Key.arrived console.events = Utf8.encode typed ∧
      ¬ EachAfter Key.carriageReturn Key.lineFeed
        (readTimes setup 1 console).sink.kept.bytes := by
  intro setup typed console
  have hnames : ∀ name ∈ ["echo", "exit"], '\n' ∉ name.toList := by decide
  have hrow : Line.OneRow setup := ⟨by decide, fun _ => hnames⟩
  have hvalid : Key.arrived console.events = Utf8.encode typed := by decide
  have hnothing : Recorder.Holds [] console.sink := Recorder.unlimited_holds
  obtain ⟨echo, hwritten, hreturns⟩ :=
    readTimes_returns Recorder.takes rfl hrow 1 (not_swallowed hvalid) hnothing
  have hdrawn : ∃ step ∈ courses setup 1 console, Line.Redrawn setup step := by
    rw [courses, courses, List.append_nil]
    repeat rw [course_edit (by decide) rfl rfl]
    rw [course_finish (by decide) rfl rfl]
    decide +kernel
  obtain ⟨step, hstep, hredrawn⟩ := hdrawn
  refine ⟨rfl, hrow, hvalid, fun heach => hreturns.iff.mp ?_ step hstep hredrawn⟩
  rw [hwritten.2] at heach
  exact (Utf8.encode_eachAfter (c := '\r') (d := '\n') (by decide) (by decide) echo).mp heach

end Readings

end Console

end LineShell
