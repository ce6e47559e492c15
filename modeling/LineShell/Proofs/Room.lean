import LineShell.Proofs.Reading
import Mathlib.Logic.Basic

/-!
# Output with little room

A recorder with a limit takes bytes in their order, in whatever pieces they come,
until there is no room for the next one. So a line that is read with little room for
its echo is read as with all the room, up to the first byte that is refused, and
there the reading fails.
-/

set_option autoImplicit false

namespace LineShell

namespace Recorder

def HasRoom (r : Recorder) (bs : Bytes) : Prop := ∀ limit ∈ r.limit, bs.length ≤ limit.1

def fed (r : Recorder) (bs : Bytes) : Recorder :=
  ⟨r.limit.map fun limit => (limit.1 - bs.length, limit.2), r.kept.push bs⟩

def fedAll (r : Recorder) (pieces : List Bytes) : Recorder := pieces.foldl fed r

section Writing

variable {r : Recorder} {bs more : Bytes} {pieces : List Bytes} {room : Nat} {refusal : OsError}

theorem hasRoom_of_limit (h : r.limit = some (room, refusal)) :
    r.HasRoom bs ↔ bs.length ≤ room := by
  simp [HasRoom, h]

theorem not_hasRoom (h : ¬ r.HasRoom bs) :
    ∃ room refusal, r.limit = some (room, refusal) ∧ room < bs.length := by
  simp only [HasRoom, not_forall, Nat.not_le] at h
  obtain ⟨⟨room, refusal⟩, hlimit, hlong⟩ := h
  exact ⟨room, refusal, hlimit, hlong⟩

theorem hasRoom_nil (r : Recorder) : r.HasRoom [] := fun _ _ => Nat.zero_le _

theorem HasRoom.left (h : r.HasRoom (bs ++ more)) : r.HasRoom bs := by
  intro limit hlimit
  have hall := h limit hlimit
  rw [List.length_append] at hall
  omega

theorem hasRoom_fed (h : r.HasRoom bs) : (r.fed bs).HasRoom more ↔ r.HasRoom (bs ++ more) := by
  obtain ⟨limit, kept⟩ := r
  cases limit with
  | none => exact ⟨fun _ => nofun, fun _ => nofun⟩
  | some limit =>
    have hroom : bs.length ≤ limit.1 := h limit rfl
    have hleft : (fed ⟨some limit, kept⟩ bs).limit = some (limit.1 - bs.length, limit.2) := rfl
    have hwhole : (Recorder.mk (some limit) kept).limit = some (limit.1, limit.2) := rfl
    rw [hasRoom_of_limit hleft, hasRoom_of_limit hwhole, List.length_append]
    omega

theorem fedAll_bytes (r : Recorder) (pieces : List Bytes) :
    (r.fedAll pieces).kept.bytes = r.kept.bytes ++ pieces.flatten := by
  induction pieces generalizing r with
  | nil => simp [fedAll]
  | cons piece pieces ih =>
    show ((r.fed piece).fedAll pieces).kept.bytes = _
    rw [ih, List.flatten_cons, ← List.append_assoc]
    exact congrArg (· ++ pieces.flatten) (Transcript.bytes_push r.kept piece)

theorem hasRoom_fedAll (h : r.HasRoom pieces.flatten) :
    (r.fedAll pieces).HasRoom more ↔ r.HasRoom (pieces.flatten ++ more) := by
  induction pieces generalizing r with
  | nil => rfl
  | cons piece pieces ih =>
    have hpiece : r.HasRoom piece := h.left
    rw [List.flatten_cons, List.append_assoc, ← hasRoom_fed hpiece]
    exact ih ((hasRoom_fed hpiece).mpr h)

theorem fedAll_limit (r : Recorder) (pieces : List Bytes) : (r.fedAll pieces).limit =
    r.limit.map fun limit => (limit.1 - pieces.flatten.length, limit.2) := by
  induction pieces generalizing r with
  | nil => exact Option.map_id'.symm
  | cons piece pieces ih =>
    show ((r.fed piece).fedAll pieces).limit = _
    rw [ih, List.flatten_cons, List.length_append, fed, Option.map_map]
    exact congrArg (r.limit.map ·) (funext fun limit => by simp [Nat.sub_sub])

theorem fedAll_append (r : Recorder) (pieces later : List Bytes) :
    r.fedAll (pieces ++ later) = (r.fedAll pieces).fedAll later :=
  List.foldl_append

theorem write_roomy (h : r.HasRoom bs) : Sink.write r bs = (none, r.fed bs) := by
  obtain ⟨limit, kept⟩ := r
  cases limit with
  | none => rfl
  | some limit =>
    have hroom : bs.length ≤ limit.1 := h limit rfl
    show Recorder.write _ _ = _
    simp only [write, fed, if_pos hroom, List.take_of_length_le hroom, Option.map_some]

theorem write_cramped (h : r.limit = some (room, refusal)) (hlong : room < bs.length) :
    ∃ left, Sink.write r bs = (some refusal, left) ∧
      left.kept.bytes = r.kept.bytes ++ bs.take room := by
  refine ⟨⟨some (room - bs.length, refusal), r.kept.push (bs.take room)⟩, ?_,
    Transcript.bytes_push _ _⟩
  show Recorder.write _ _ = _
  simp only [write, h, if_neg (Nat.not_le.mpr hlong)]

theorem writeAll_roomy (h : r.HasRoom pieces.flatten) :
    Sink.writeAll r pieces = (none, r.fedAll pieces) := by
  induction pieces generalizing r with
  | nil => rfl
  | cons piece pieces ih =>
    have hpiece : r.HasRoom piece := h.left
    rw [Sink.writeAll, write_roomy hpiece]
    exact ih ((hasRoom_fed hpiece).mpr h)

theorem writeAll_cramped (h : r.limit = some (room, refusal))
    (hlong : room < pieces.flatten.length) :
    ∃ left, Sink.writeAll r pieces = (some refusal, left) ∧
      left.kept.bytes = r.kept.bytes ++ pieces.flatten.take room := by
  induction pieces generalizing r room with
  | nil => simp at hlong
  | cons piece pieces ih =>
    rw [List.flatten_cons] at hlong ⊢
    by_cases hpiece : piece.length ≤ room
    · have hfed : (r.fed piece).limit = some (room - piece.length, refusal) := by
        rw [fed, h]
        rfl
      rw [List.length_append] at hlong
      obtain ⟨left, hleft, hkept⟩ := ih hfed (by omega)
      refine ⟨left, ?_, ?_⟩
      · rw [Sink.writeAll, write_roomy ((hasRoom_of_limit h).mpr hpiece)]
        exact hleft
      · rw [hkept, List.take_append, List.take_of_length_le hpiece, ← List.append_assoc]
        exact congrArg (· ++ _) (Transcript.bytes_push r.kept piece)
    · have hcut : room < piece.length := Nat.not_le.mp hpiece
      obtain ⟨left, hleft, hkept⟩ := write_cramped h hcut
      refine ⟨left, by rw [Sink.writeAll, hleft], ?_⟩
      rw [hkept, List.take_append_of_le_length (Nat.le_of_lt hcut)]

theorem emit_cases (r : Recorder) (pieces : List Bytes) :
    (r.HasRoom pieces.flatten ∧ Sink.emit r pieces = (none, r.fedAll pieces)) ∨
      ∃ room refusal left, r.limit = some (room, refusal) ∧ room < pieces.flatten.length ∧
        Sink.emit r pieces = (some refusal, left) ∧
        left.kept.bytes = r.kept.bytes ++ pieces.flatten.take room := by
  by_cases hroom : r.HasRoom pieces.flatten
  · refine .inl ⟨hroom, ?_⟩
    rw [Sink.emit, writeAll_roomy hroom]
    rfl
  · obtain ⟨room, refusal, hlimit, hlong⟩ := not_hasRoom hroom
    obtain ⟨left, hleft, hkept⟩ := writeAll_cramped hlimit hlong
    refine .inr ⟨room, refusal, left, hlimit, hlong, ?_, hkept⟩
    rw [Sink.emit, hleft]

end Writing

end Recorder

namespace Console

/-- How a reading that puts its echo on a recorder compares with one whose echo is
taken as a whole: they are the same if there is room for the echo, and otherwise the
recorder is filled and its refusal is what comes of the reading. -/
structure Fits {σ : Type} (r : Recorder) (echo : Bytes)
    (whole : Except ReadError String × Console σ)
    (part : Except ReadError String × Console Recorder) : Prop where
  same : r.HasRoom echo → part.1 = whole.1 ∧ part.2.events = whole.2.events ∧
    part.2.notices = whole.2.notices ∧ part.2.sink.kept.bytes = r.kept.bytes ++ echo
  refused : ∀ room refusal, r.limit = some (room, refusal) → room < echo.length →
    part.1 = .error (.io refusal) ∧ part.2.sink.kept.bytes = r.kept.bytes ++ echo.take room

variable {σ : Type}

theorem Fits.silent (r : Recorder) (result : Except ReadError String) (console : Console σ) :
    Fits r [] (result, console) (result, ⟨console.events, r, console.notices⟩) where
  same _ := ⟨rfl, rfl, rfl, (List.append_nil _).symm⟩
  refused _ _ _ h := absurd h (Nat.not_lt_zero _)

theorem Fits.after {r : Recorder} {pieces : List Bytes} {echo : Bytes}
    {whole : Except ReadError String × Console σ}
    {part : Except ReadError String × Console Recorder}
    (hroom : r.HasRoom pieces.flatten) (h : Fits (r.fedAll pieces) echo whole part) :
    Fits r (pieces.flatten ++ echo) whole part where
  same hall := by
    obtain ⟨hresult, hevents, hnotices, hkept⟩ := h.same ((Recorder.hasRoom_fedAll hroom).mpr hall)
    refine ⟨hresult, hevents, hnotices, ?_⟩
    rw [hkept, Recorder.fedAll_bytes, List.append_assoc]
  refused room refusal hlimit hlong := by
    have hfits := (Recorder.hasRoom_of_limit hlimit).mp hroom
    rw [List.length_append] at hlong
    have hrest : (r.fedAll pieces).limit = some (room - pieces.flatten.length, refusal) := by
      rw [Recorder.fedAll_limit, hlimit]
      rfl
    obtain ⟨hresult, hkept⟩ := h.refused _ refusal hrest (by omega)
    refine ⟨hresult, ?_⟩
    rw [hkept, Recorder.fedAll_bytes, List.append_assoc, List.take_append,
      List.take_of_length_le hfits]

theorem Fits.cut {r left : Recorder} {pieces : List Bytes} {room : Nat} {refusal : OsError}
    (hlimit : r.limit = some (room, refusal)) (hlong : room < pieces.flatten.length)
    (hkept : left.kept.bytes = r.kept.bytes ++ pieces.flatten.take room) (echo : Bytes)
    (whole : Except ReadError String × Console σ) (events : List Event) (notices : List Notice) :
    Fits r (pieces.flatten ++ echo) whole (.error (.io refusal), ⟨events, left, notices⟩) where
  same hall := by
    have hfits := (Recorder.hasRoom_of_limit hlimit).mp hall.left
    omega
  refused room' refusal' hlimit' _ := by
    cases hlimit.symm.trans hlimit'
    refine ⟨rfl, hkept.trans ?_⟩
    rw [List.take_append_of_le_length (Nat.le_of_lt hlong)]

variable [Sink σ]

/-- A reading on a sink that takes everything, and the same on a recorder. -/
theorem readFrom_fits {P : Bytes → σ → Prop} (hP : Sink.Takes P) (setup : Setup) (line : Line)
    (console : Console σ) (r : Recorder) {written : Bytes} (hsink : P written console.sink) :
    ∃ echo, P (written ++ echo) (console.readFrom setup line).2.sink ∧
      Fits r echo (console.readFrom setup line)
        (readFrom setup line ⟨console.events, r, console.notices⟩) := by
  -- both readings see the same keys; the recorder is the one thing that a key may leave different
  fun_induction readFrom setup line console generalizing r written with
  | case1 line console hnil =>
    have hpart : readFrom setup line ⟨console.events, r, console.notices⟩ =
        (.error (.abort .endOfInput), ⟨console.events, r, console.notices⟩) := readFrom_nil hnil
    rw [hpart]
    exact ⟨[], by rwa [List.append_nil], .silent r _ console⟩
  | case2 line console hne rest e hkey =>
    have hpart : readFrom setup line ⟨console.events, r, console.notices⟩ =
        (.error e, ⟨rest, r, console.notices⟩) :=
      readFrom_error (Prod.ext hkey rfl) console.notices
    rw [hpart]
    exact ⟨[], by rwa [List.append_nil], .silent r _ ⟨rest, console.sink, console.notices⟩⟩
  | case3 line console hne rest key hkey result hrespond =>
    rw [readFrom_finish (Prod.ext hkey rfl) hne hrespond]
    exact ⟨[], by rwa [List.append_nil], .silent r _ ⟨rest, console.sink, console.notices⟩⟩
  | case4 line console hne rest key hkey next pieces noted hrespond sink later e =>
    rename_i hemit
    obtain ⟨taken, hwritten, -⟩ := hP.emit (pieces.map Utf8.encode) hsink
    cases hemit.symm.trans hwritten
  | case5 line console hne rest key hkey next pieces noted hrespond sink later hemit =>
    rename_i ih
    obtain ⟨taken, hwritten, htaken⟩ := hP.emit (pieces.map Utf8.encode) hsink
    cases hemit.symm.trans hwritten
    rcases r.emit_cases (pieces.map Utf8.encode) with
      ⟨hroom, hfed⟩ | ⟨room, refusal, left, hlimit, hlong, hcut, hkept⟩
    · have hpart : readFrom setup line ⟨console.events, r, console.notices⟩ =
          readFrom setup next
            ⟨later.events, r.fedAll (pieces.map Utf8.encode), later.notices⟩ := by
        rw [readFrom_echoed (Prod.ext hkey rfl) hrespond, hfed]
      obtain ⟨echo, hafter, hfits⟩ := ih (r.fedAll (pieces.map Utf8.encode)) htaken
      rw [hpart]
      exact ⟨_, by rwa [← List.append_assoc], hfits.after hroom⟩
    · have hpart : readFrom setup line ⟨console.events, r, console.notices⟩ =
          (.error (.io refusal), ⟨later.events, left, later.notices⟩) := by
        rw [readFrom_echoed (Prod.ext hkey rfl) hrespond, hcut]
      obtain ⟨echo, hafter, -⟩ := ih r htaken
      rw [hpart]
      exact ⟨_, by rwa [← List.append_assoc], .cut hlimit hlong hkept echo _ _ _⟩

/-- A line that is read where the echo has little room, beside the same with all the
room. Only the length of the whole echo decides: with enough room nothing differs, and
otherwise the echo is cut where the room ends and the refusal is the result, never a
line and never an abort. -/
theorem readLine_limited (setup : Setup) (events : List Event) (notices : List Notice)
    (n : Nat) (refusal : OsError) :
    let full := readLine setup ⟨events, Recorder.unlimited, notices⟩
    let short := readLine setup ⟨events, Recorder.limited n refusal, notices⟩
    let echo := full.2.sink.kept.bytes
    short.1 = (if echo.length ≤ n then full.1 else .error (.io refusal)) ∧
      short.2.sink.kept.bytes = echo.take n ∧
      (echo.length ≤ n → short.2.events = full.2.events ∧ short.2.notices = full.2.notices) := by
  intro full short echo
  obtain ⟨written, htaken, hfits⟩ := readFrom_fits Recorder.takes setup .empty
    ⟨events, Recorder.unlimited, notices⟩ (Recorder.limited n refusal) Recorder.unlimited_holds
  have hecho : echo = written := htaken.2
  have hlimit : (Recorder.limited n refusal).limit = some (n, refusal) := rfl
  rw [hecho]
  by_cases hroom : written.length ≤ n
  · obtain ⟨hresult, hevents, hnotices, hkept⟩ :=
      hfits.same ((Recorder.hasRoom_of_limit hlimit).mpr hroom)
    rw [if_pos hroom, List.take_of_length_le hroom]
    exact ⟨hresult, hkept, fun _ => ⟨hevents, hnotices⟩⟩
  · obtain ⟨hresult, hkept⟩ := hfits.refused n refusal hlimit (Nat.not_le.mp hroom)
    rw [if_neg hroom]
    exact ⟨hresult, hkept, fun h => absurd h hroom⟩

end Console

end LineShell
