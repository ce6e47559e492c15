import LineShell.Editor.Reader

/-!
# Steps of reading

One key at a time: either it changes the line and its echo goes out, or it ends
the reading. What is said here holds for every sink that takes all it is given.
-/

set_option autoImplicit false

namespace LineShell

variable {σ : Type} [Sink σ]

/-- The predicate tells what a sink took so far. From a state that fulfils it,
nothing that is written is refused. -/
structure Sink.Takes (P : Bytes → σ → Prop) : Prop where
  emit : ∀ {written : Bytes} {sink : σ} (pieces : List Bytes), P written sink →
    ∃ next, Sink.emit sink pieces = (none, next) ∧ P (written ++ pieces.flatten) next

theorem Sink.unit_takes : Sink.Takes fun _ (_ : Unit) => True := by
  refine ⟨fun {written sink} pieces _ => ⟨(), ?_, trivial⟩⟩
  have hwrite : Sink.writeAll () pieces = (none, ()) := by
    induction pieces with
    | nil => rfl
    | cons piece pieces ih => exact ih
  rw [Sink.emit, hwrite]
  rfl

namespace Recorder

def Holds (written : Bytes) (r : Recorder) : Prop := r.limit = none ∧ r.kept.bytes = written

theorem writeAll_holds {written : Bytes} {r : Recorder} (pieces : List Bytes)
    (h : Holds written r) :
    ∃ next, Sink.writeAll r pieces = (none, next) ∧ Holds (written ++ pieces.flatten) next := by
  induction pieces generalizing written r with
  | nil => exact ⟨r, rfl, by simpa using h⟩
  | cons piece pieces ih =>
    have hpush : Holds (written ++ piece) { r with kept := r.kept.push piece } :=
      ⟨h.1, by rw [Transcript.bytes_push, h.2]⟩
    obtain ⟨next, hwrite, hnext⟩ := ih hpush
    refine ⟨next, ?_, by simpa using hnext⟩
    have hone : Sink.write r piece = (none, { r with kept := r.kept.push piece }) := by
      change Recorder.write r piece = _
      rw [Recorder.write, h.1]
    rw [Sink.writeAll, hone]
    exact hwrite

theorem takes : Sink.Takes Holds where
  emit pieces h := by
    obtain ⟨next, hwrite, hnext⟩ := writeAll_holds pieces h
    refine ⟨next, ?_, hnext⟩
    rw [Sink.emit, hwrite]
    rfl

theorem unlimited_holds : Holds [] unlimited := ⟨rfl, rfl⟩

end Recorder

namespace Console

variable {setup : Setup} {line : Line} {events rest : List Event} {key : Key} {sink : σ}

theorem readFrom_error {e : ReadError} (hnext : Key.next events = (.error e, rest))
    (notices : List Notice) :
    readFrom setup line ⟨events, sink, notices⟩ = (.error e, ⟨rest, sink, notices⟩) := by
  by_cases hevents : events = []
  · subst hevents
    cases hnext
    exact readFrom_nil rfl
  · rw [readFrom, dif_neg hevents]
    simp only [hnext]

theorem events_ne_nil (hnext : Key.next events = (.ok key, rest)) : events ≠ [] := by
  rintro rfl
  cases hnext

/-- After the echo of a key the next key is read, unless the echo was refused. -/
theorem readFrom_echoed {next : Line} {echo : List (List Char)} {noted : List Notice}
    (hnext : Key.next events = (.ok key, rest))
    (hrespond : line.respond setup key = .edit next echo noted) (notices : List Notice) :
    readFrom setup line ⟨events, sink, notices⟩ =
      match Sink.emit sink (echo.map Utf8.encode) with
      | (some e, left) => (.error (.io e), ⟨rest, left, notices ++ noted⟩)
      | (none, left) => readFrom setup next ⟨rest, left, notices ++ noted⟩ := by
  rw [readFrom, dif_neg (events_ne_nil hnext)]
  simp only [hnext, hrespond]
  rcases Sink.emit sink (echo.map Utf8.encode) with ⟨_ | e, left⟩
  · rfl
  · rfl

theorem readFrom_finish {result : Except ReadError String}
    (hnext : Key.next events = (.ok key, rest)) (hevents : events ≠ [])
    (hrespond : line.respond setup key = .finish result) (notices : List Notice) :
    readFrom setup line ⟨events, sink, notices⟩ = (result, ⟨rest, sink, notices⟩) := by
  rw [readFrom, dif_neg hevents]
  simp only [hnext, hrespond]

theorem readFrom_edit {P : Bytes → σ → Prop} (hP : Sink.Takes P) {written : Bytes}
    (hsink : P written sink) {next : Line} {echo : List (List Char)} {noted : List Notice}
    (hnext : Key.next events = (.ok key, rest)) (hevents : events ≠ [])
    (hrespond : line.respond setup key = .edit next echo noted) (notices : List Notice) :
    ∃ after, P (written ++ (echo.map Utf8.encode).flatten) after ∧
      readFrom setup line ⟨events, sink, notices⟩ =
        readFrom setup next ⟨rest, after, notices ++ noted⟩ := by
  obtain ⟨after, hemit, hafter⟩ := hP.emit (echo.map Utf8.encode) hsink
  refine ⟨after, hafter, ?_⟩
  rw [readFrom, dif_neg hevents]
  simp only [hnext, hrespond, hemit]

end Console

end LineShell
