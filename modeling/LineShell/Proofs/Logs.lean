import LineShell.Log
import LineShell.Proofs.Alike

/-!
# The log file

A notice goes to the log file if its level is let through, and nowhere else. Hosts
that differ in nothing but the log go on alike.
-/

set_option autoImplicit false

namespace LineShell

namespace Host

def records (h : Host) (level : Level) : Bool := h.threshold?.any (·.admits level)

def recording (h : Host) (level : Level) : Option Location :=
  if h.records level then h.logPlace? else none

variable {log : Option Location} {g h k : Host}

theorem recording_eq {level finer : Level} (hlog : h.recording level = log)
    (hlevel : level.detail ≤ finer.detail) (hrecords : h.records finer = true) :
    h.logPlace? = log := by
  have hcoarser : h.records level = true := by
    rw [records, Option.any_eq_true] at hrecords ⊢
    obtain ⟨threshold, hthreshold, hadmits⟩ := hrecords
    exact ⟨threshold, hthreshold, decide_eq_true (Nat.le_trans hlevel (of_decide_eq_true hadmits))⟩
  rwa [recording, if_pos hcoarser] at hlog

theorem threshold?_note (h : Host) (n : Notice) : (h.note n).threshold? = h.threshold? := by
  obtain ⟨tree, file, hfile, hnote⟩ := h.note_eq n
  rw [show h.note n = _ from hnote h.stdout h.stderr h.journal.notices]
  exact hfile

theorem stderr_noteAll (h : Host) (ns : List Notice) : (h.noteAll ns).stderr = h.stderr := by
  induction ns generalizing h with
  | nil => rfl
  | cons n ns ih => exact (ih (h.note n)).trans (stderr_note h n)

theorem notices_noteAll (h : Host) (ns : List Notice) :
    (h.noteAll ns).journal.notices = h.journal.notices ++ ns := by
  induction ns generalizing h with
  | nil => exact (List.append_nil _).symm
  | cons n ns ih =>
    show ((h.note n).noteAll ns).journal.notices = _
    rw [ih, notices_note, List.append_assoc]
    rfl

theorem noteAll_append (h : Host) (ns ms : List Notice) :
    h.noteAll (ns ++ ms) = (h.noteAll ns).noteAll ms :=
  List.foldl_append

theorem note_unrecorded {n : Notice} (hn : h.records n.level = false) :
    h.note n = { h with journal.notices := h.journal.notices ++ [n] } := by
  unfold records threshold? at hn
  unfold note
  rcases hfile : h.journal.file with _ | ⟨handle, threshold⟩
  · rfl
  · simp only [hfile, Option.map_some, Option.any_some] at hn
    simp [hn]

theorem noteAll_unrecorded {ns : List Notice} (hns : ∀ n ∈ ns, h.records n.level = false) :
    h.noteAll ns = { h with journal.notices := h.journal.notices ++ ns } := by
  induction ns generalizing h with
  | nil =>
    rw [List.append_nil]
    rfl
  | cons n ns ih =>
    have hnote := note_unrecorded (hns n (by simp))
    have hrest : ∀ m ∈ ns, (h.note n).records m.level = false := by
      intro m hm
      rw [hnote]
      exact hns m (by simp [hm])
    refine (ih hrest).trans ?_
    rw [hnote]
    simp

/-! ## Hosts beside the log -/

/-- The hosts have put out the same, and they have the same files, but the log file may
hold something else in each. Nothing is said of the notices so far. -/
structure SameBut (log : Option Location) (h k : Host) : Prop where
  tree : h.tree.SameBut log k.tree
  start : k.start = h.start
  path : k.path = h.path
  stdout : k.stdout = h.stdout
  stderr : k.stderr = h.stderr
  clock : k.journal.clock = h.journal.clock
  threshold : k.threshold? = h.threshold?
  file : k.journal.file = h.journal.file ∨ h.logPlace? = log ∧ k.logPlace? = log

namespace SameBut

theorem refl (log : Option Location) (h : Host) : SameBut log h h :=
  ⟨.refl _ _, rfl, rfl, rfl, rfl, rfl, rfl, .inl rfl⟩

theorem symm (h' : SameBut log h k) : SameBut log k h where
  tree := h'.tree.symm
  start := h'.start.symm
  path := h'.path.symm
  stdout := h'.stdout.symm
  stderr := h'.stderr.symm
  clock := h'.clock.symm
  threshold := h'.threshold.symm
  file := h'.file.imp Eq.symm And.symm

theorem trans (h₁ : SameBut log g h) (h₂ : SameBut log h k) : SameBut log g k where
  tree := h₁.tree.trans h₂.tree
  start := h₂.start.trans h₁.start
  path := h₂.path.trans h₁.path
  stdout := h₂.stdout.trans h₁.stdout
  stderr := h₂.stderr.trans h₁.stderr
  clock := h₂.clock.trans h₁.clock
  threshold := h₂.threshold.trans h₁.threshold
  file := by
    rcases h₁.file with hfile | ⟨hg, hh⟩
    · unfold logPlace? at *
      rw [← hfile]
      exact h₂.file
    · refine .inr ⟨hg, ?_⟩
      rcases h₂.file with hfile | ⟨-, hk⟩
      · rwa [logPlace?, hfile]
      · exact hk

theorem logPlace (h' : SameBut log h k) : k.logPlace? = h.logPlace? := by
  rcases h'.file with hfile | ⟨hh, hk⟩
  · rw [logPlace?, hfile]
    rfl
  · rw [hh, hk]

theorem recording (h' : SameBut log h k) (level : Level) :
    k.recording level = h.recording level := by
  rw [Host.recording, Host.recording, records, records, h'.threshold, h'.logPlace]

end SameBut

theorem logPlace?_note (h : Host) (n : Notice) : (h.note n).logPlace? = h.logPlace? := by
  unfold note logPlace?
  dsimp only
  split
  · rfl
  rename_i handle threshold hfile
  split
  · split
    · rename_i hwrite
      have hmem : handle.loc ∈ some handle.loc := rfl
      rw [hfile]
      exact congrArg some (FileTree.write_sameBut hwrite hmem).2
    · rfl
  · rfl

/-- A notice makes no difference but to its log file. -/
theorem note_sameBut (h : Host) (n : Notice) (hlog : h.records n.level = true → h.logPlace? = log) :
    SameBut log h (h.note n) := by
  by_cases hrecords : h.records n.level = true
  · have hplace := hlog hrecords
    refine ⟨?_, h.note_start n, h.note_path n, h.note_stdout n, h.stderr_note n, h.note_clock n,
      h.threshold?_note n, .inr ⟨hplace, (h.logPlace?_note n).trans hplace⟩⟩
    unfold note
    dsimp only
    split
    · exact .refl _ _
    rename_i handle threshold hfile
    split
    · split
      · rename_i hwrite
        refine (FileTree.write_sameBut hwrite ?_).1
        rw [← hplace, logPlace?, hfile]
        rfl
      · exact .refl _ _
    · exact .refl _ _
  · rw [note_unrecorded (by simpa using hrecords)]
    exact ⟨.refl _ _, rfl, rfl, rfl, rfl, rfl, rfl, .inl rfl⟩

theorem noteAll_sameBut {ns : List Notice}
    (hlog : ∀ n ∈ ns, h.records n.level = true → h.logPlace? = log) :
    SameBut log h (h.noteAll ns) := by
  induction ns generalizing h with
  | nil => exact .refl _ _
  | cons n ns ih =>
    refine (h.note_sameBut n (hlog n (by simp))).trans (ih fun m hm => ?_)
    rw [records, threshold?_note, logPlace?_note]
    exact hlog m (by simp [hm])

namespace SameBut

theorem note (h' : SameBut log h k) (n : Notice) : SameBut log (h.note n) (k.note n) := by
  rcases h'.file with hfile | ⟨hh, hk⟩
  · -- the same handle writes the same line to both files
    have hwritten : (h.note n).tree.SameBut log (k.note n).tree ∧
        (k.note n).journal.file = (h.note n).journal.file := by
      unfold Host.note
      dsimp only
      rw [hfile, h'.clock]
      rcases h.journal.file with _ | ⟨handle, threshold⟩
      · exact ⟨h'.tree, rfl⟩
      dsimp only
      split
      · obtain ⟨e, hwrite, hwrite'⟩ | ⟨t, u, next, hwrite, hwrite', htree⟩ :=
          h'.tree.write handle (Utf8.ofString (logLine h.journal.clock n))
        · rw [hwrite, hwrite']
          exact ⟨h'.tree, rfl⟩
        · rw [hwrite, hwrite']
          exact ⟨htree, rfl⟩
      · exact ⟨h'.tree, rfl⟩
    constructor
    · exact hwritten.1
    · rw [note_start, note_start, h'.start]
    · rw [note_path, note_path, h'.path]
    · rw [note_stdout, note_stdout, h'.stdout]
    · rw [stderr_note, stderr_note, h'.stderr]
    · rw [note_clock, note_clock, h'.clock]
    · rw [threshold?_note, threshold?_note, h'.threshold]
    · exact .inl hwritten.2
  · exact ((h.note_sameBut n fun _ => hh).symm.trans h').trans (k.note_sameBut n fun _ => hk)

theorem noteAll (h' : SameBut log h k) (ns : List Notice) :
    SameBut log (h.noteAll ns) (k.noteAll ns) := by
  induction ns generalizing h k with
  | nil => exact h'
  | cons n ns ih => exact ih (h'.note n)

end SameBut

end Host

end LineShell
