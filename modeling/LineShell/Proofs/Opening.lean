import LineShell.Proofs.Delivering

/-!
# Opening the streams

A stream is opened at the target of its channel and leads there from then on. Opening
makes the file or, unless the handle writes to the end, empties it. Both channels may be
opened at one file.
-/

set_option autoImplicit false

namespace LineShell

namespace Channel

def writeKind : Channel → Redirect.Kind
  | .out => .stdoutWrite
  | .err => .stderrWrite

def appendKind : Channel → Redirect.Kind
  | .out => .stdoutAppend
  | .err => .stderrAppend

end Channel

structure Handle.IsFor (handle : Handle) (t : FileTree) (start : Location)
    (target : Redirect.Target) : Prop where
  atEnd : handle.atEnd = decide (target.mode = .append)
  leads : ∃ node, t.look start target.path = .ok (handle.loc, node)

namespace Streams

def opened (handle? : Option Handle) (content : Option Bytes) : Option Bytes :=
  handle?.elim content fun handle => some (if handle.atEnd then content.getD [] else [])

theorem opened_both {out err : Option Handle} (h : out.isSome ∨ err.isSome)
    (content : Option Bytes) : opened err (opened out content) =
      some (if [out, err].any (·.any (!·.atEnd)) then [] else content.getD []) := by
  cases out with
  | none =>
    cases err with
    | none => simp at h
    | some err => cases herr : err.atEnd <;> simp [opened, herr]
  | some out =>
    cases err with
    | none => cases hout : out.atEnd <;> simp [opened, hout]
    | some err => cases hout : out.atEnd <;> cases herr : err.atEnd <;> simp [opened, hout, herr]

section Opening

variable {t u v : FileTree} {start loc : Location} {target? : Option Redirect.Target}
  {handle? : Option Handle} {content : Option Bytes} {mode : Nat} {spots : Location → Prop}

theorem openOutput_cases (h : openOutput t start target? = .ok (u, handle?)) :
    target? = none ∧ handle? = none ∧ u = t ∨
      ∃ target handle, target? = some target ∧ handle? = some handle ∧
        t.openForWriting start (target.mode = .append) target.path = .ok (u, handle) := by
  unfold openOutput at h
  split at h
  · cases h
    exact .inl ⟨rfl, rfl, rfl⟩
  · rename_i target
    split at h
    · rename_i opened handle hopen
      cases h
      exact .inr ⟨target, handle, rfl, rfl, hopen⟩
    · cases h

theorem openOutput_touches (h : openOutput t start target? = .ok (u, handle?)) :
    FileTree.Touches (fun loc => ∃ handle, handle? = some handle ∧ handle.loc = loc) t u := by
  rcases openOutput_cases h with ⟨-, -, rfl⟩ | ⟨target, handle, -, rfl, hopen⟩
  · exact .refl _ _
  · exact (FileTree.openForWriting_touches hopen).1.mono fun loc hspot => ⟨handle, rfl, hspot.symm⟩

theorem openOutput_holds (h : openOutput t start target? = .ok (u, handle?))
    (hn : t.Holds loc content mode) :
    u.Holds loc (opened (Handle.at? handle? loc) content) mode := by
  rcases openOutput_cases h with ⟨-, rfl, rfl⟩ | ⟨target, handle, -, rfl, hopen⟩
  · exact hn
  obtain ⟨htouches, -, hatEnd⟩ := FileTree.openForWriting_touches hopen
  by_cases hspot : handle.loc = loc
  · subst hspot
    rw [Handle.at?_self, opened, Option.elim_some, hatEnd]
    exact FileTree.openForWriting_holds hopen hn
  · rw [Handle.at?_other hspot]
    exact hn.congr (htouches.kept fun hloc => hspot hloc.symm)

theorem openOutput_target (h : openOutput t start target? = .ok (u, handle?))
    (hv : FileTree.Touches spots u v) : (target? = none → handle? = none) ∧
      (∀ handle, handle? = some handle → handle.offset = 0) ∧
      ∀ target, target? = some target → ∃ handle, handle? = some handle ∧
        handle.IsFor v start target := by
  rcases openOutput_cases h with ⟨rfl, rfl, -⟩ | ⟨target, handle, rfl, rfl, hopen⟩
  · exact ⟨fun _ => rfl, nofun, nofun⟩
  obtain ⟨-, hoffset, hatEnd⟩ := FileTree.openForWriting_touches hopen
  refine ⟨nofun, ?_, ?_⟩
  · rintro _ ⟨⟩
    exact hoffset
  · rintro _ ⟨⟩
    exact ⟨handle, rfl, hatEnd, FileTree.openForWriting_look hopen hv⟩

theorem ofTable_opened {table : Redirect.Table} {streams : Streams}
    (h : ofTable t start table = (.ok streams, u)) : ∃ middle,
      openOutput t start (table.effective .stdoutWrite .stdoutAppend) =
        .ok (middle, streams.stdout) ∧
      openOutput middle start (table.effective .stderrWrite .stderrAppend) =
        .ok (u, streams.stderr) := by
  unfold ofTable at h
  split at h
  · cases h
  split at h
  · cases h
  rename_i hout
  split at h
  · cases h
  rename_i herr
  cases h
  exact ⟨_, hout, herr⟩

end Opening

end Streams

namespace Job

def empties (j : Job) (loc : Location) : Bool :=
  [Handle.at? (j.handle .out) loc, Handle.at? (j.handle .err) loc].any (·.any (!·.atEnd))

/-- What is in a file when the job begins, given what was in it before. -/
def base (j : Job) (loc : Location) (before : Bytes) : Bytes :=
  if j.empties loc then [] else before

variable {j : Job} {loc : Location}

theorem opened_base (h : j.At loc) (content : Option Bytes) :
    Streams.opened (Handle.at? (j.handle .err) loc)
        (Streams.opened (Handle.at? (j.handle .out) loc) content) =
      some (j.base loc (content.getD [])) := by
  obtain ⟨channel, handle, hhandle, rfl⟩ := h
  have hpen : (Handle.at? (j.handle channel) handle.loc).isSome := by
    rw [hhandle, Handle.at?_self]
    rfl
  refine Streams.opened_both ?_ content
  cases channel with
  | out => exact .inl hpen
  | err => exact .inr hpen

theorem base_other (h : ¬ j.At loc) (before : Bytes) : j.base loc before = before := by
  have hpen (channel : Channel) : Handle.at? (j.handle channel) loc = none :=
    Option.filter_eq_none_iff.mpr fun handle hhandle hloc =>
      h ⟨channel, handle, hhandle, of_decide_eq_true hloc⟩
  rw [base, empties, hpen, hpen]
  rfl

theorem base_sole {channel : Channel} {handle : Handle} (hhandle : j.handle channel = some handle)
    (hothers : ∀ other, other ≠ channel → Handle.at? (j.handle other) handle.loc = none)
    (before : Bytes) :
    j.base handle.loc before = if handle.atEnd then before else [] := by
  have hpen : Handle.at? (j.handle channel) handle.loc = some handle := by
    rw [hhandle, Handle.at?_self]
  have hempties : j.empties handle.loc = !handle.atEnd := by
    cases channel with
    | out => simp [empties, hpen, hothers .err nofun]
    | err => simp [empties, hpen, hothers .out nofun]
  rw [base, hempties]
  cases handle.atEnd <;> rfl

theorem page_sole {channel : Channel} {handle : Handle} (hhandle : j.handle channel = some handle)
    (hothers : ∀ other, other ≠ channel → Handle.at? (j.handle other) handle.loc = none)
    (hoffset : handle.offset = 0) (before : Bytes) (told : List (Channel × String)) :
    ((j.page handle.loc (j.base handle.loc before)).inkAll told).content =
      (if handle.atEnd then before else []) ++ (channel.pieces told).flatten := by
  rw [base_sole hhandle hothers]
  have hpen (content : Bytes) : (j.page handle.loc content).pens channel = some handle := by
    rw [page_pens, hhandle, Handle.at?_self]
  refine Page.inkAll_sole (hpen _) ?_ hothers told
  · by_cases hatEnd : handle.atEnd = true
    · exact .inl hatEnd
    · refine .inr ?_
      rw [if_neg hatEnd]
      exact hoffset

end Job

structure Command.Opened (c : Command) (h : Host) (j : Job) : Prop where
  host : j.host = { h with tree := j.host.tree }
  tree : FileTree.Touches j.At h.tree j.host.tree
  holds : ∀ loc content mode, j.At loc → h.tree.Holds loc content mode →
    j.host.tree.Holds loc (some (j.base loc (content.getD []))) mode
  offset : ∀ channel handle, j.handle channel = some handle → handle.offset = 0
  targets : ∀ (spots : Location → Prop) v, FileTree.Touches spots j.host.tree v → ∀ channel,
    let target? := c.redirects.effective channel.writeKind channel.appendKind
    (target? = none → j.handle channel = none) ∧
      ∀ target, target? = some target → ∃ handle, j.handle channel = some handle ∧
        handle.IsFor v h.start target

theorem Command.job?_opened {c : Command} {h : Host} {j : Job} (hjob : c.job? h = some j) :
    c.Opened h j := by
  unfold job? at hjob
  split at hjob
  · cases hjob
  rename_i streams tree htable
  cases hjob
  obtain ⟨middle, hout, herr⟩ := Streams.ofTable_opened htable
  let j : Job := ⟨{ h with tree }, streams⟩
  have htouchesOut := (Streams.openOutput_touches hout).mono
    fun loc ⟨handle, hhandle, hloc⟩ => show j.At loc from ⟨.out, handle, hhandle, hloc⟩
  have htouchesErr := (Streams.openOutput_touches herr).mono
    fun loc ⟨handle, hhandle, hloc⟩ => show j.At loc from ⟨.err, handle, hhandle, hloc⟩
  constructor
  · rfl
  · exact htouchesOut.trans htouchesErr
  · intro loc content mode hat hheld
    rw [← Job.opened_base hat]
    exact Streams.openOutput_holds herr (Streams.openOutput_holds hout hheld)
  · intro channel handle hhandle
    cases channel with
    | out => exact (Streams.openOutput_target hout (.refl (fun _ => False) _)).2.1 _ hhandle
    | err => exact (Streams.openOutput_target herr (.refl (fun _ => False) _)).2.1 _ hhandle
  · intro spots v hv channel
    cases channel with
    | out =>
      obtain ⟨hnone, -, hsome⟩ := Streams.openOutput_target hout
        ((htouchesErr.mono fun loc h => (.inl h : j.At loc ∨ spots loc)).trans
          (hv.mono fun _ h => .inr h))
      exact ⟨hnone, hsome⟩
    | err =>
      obtain ⟨hnone, -, hsome⟩ := Streams.openOutput_target herr hv
      exact ⟨hnone, hsome⟩

/-- The log may be emptied too. -/
theorem Command.Opened.logs {c : Command} {h : Host} {j : Job} (hopened : c.Opened h j)
    {place : Location} {threshold : Level} {logged : Bytes} {mode : Nat}
    (hl : h.Logs place threshold logged mode) :
    j.host.Logs place threshold (j.base place logged) mode := by
  constructor
  · rw [hopened.host]
    exact hl.file
  · by_cases hat : j.At place
    · exact hopened.holds place _ mode hat hl.held
    · rw [Job.base_other hat]
      exact hl.held.congr (hopened.tree.kept hat)

end LineShell
