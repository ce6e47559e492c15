import LineShell.Proofs.Leaving
import LineShell.Proofs.Output
import LineShell.Proofs.Touching

/-!
# Where pieces go

A piece goes to the file of its channel or, without one, to the shell's own output
of that name. A handle writes from its own offset or at the end of the file, so two
handles may meet in one file. The first piece that is refused is the last one tried,
and only a full device refuses any.
-/

set_option autoImplicit false

namespace LineShell

def Channel.pieces (channel : Channel) (told : List (Channel × String)) : List Bytes :=
  (told.filter (·.1 = channel)).map fun piece => Utf8.ofString piece.2

theorem Channel.pieces_append (channel : Channel) (told more : List (Channel × String)) :
    channel.pieces (told ++ more) = channel.pieces told ++ channel.pieces more := by
  simp [pieces]

theorem Channel.pieces_self (channel : Channel) (text : String) :
    channel.pieces [(channel, text)] = [Utf8.ofString text] := by
  simp [pieces]

theorem Channel.pieces_other {channel other : Channel} (h : other ≠ channel) (text : String) :
    channel.pieces [(other, text)] = [] := by
  simp [pieces, h]

namespace Handle

def at? (handle? : Option Handle) (loc : Location) : Option Handle :=
  handle?.filter (·.loc = loc)

theorem at?_self (h : Handle) : at? (some h) h.loc = some h := by
  simp [at?]

theorem at?_other {h : Handle} {loc : Location} (hloc : h.loc ≠ loc) : at? (some h) loc = none := by
  simp [at?, hloc]

end Handle

/-- The content of a file and the handles that write to it. -/
structure Page where
  content : Bytes
  pens : Channel → Option Handle

namespace Page

def ink (p : Page) (channel : Channel) (bs : Bytes) : Page :=
  match p.pens channel with
  | none => p
  | some pen =>
    if bs = [] then p
    else
      let offset := if pen.atEnd then p.content.length else pen.offset
      ⟨FileTree.overwrite p.content offset bs, fun other =>
        if other = channel then some (pen.advance bs.length) else p.pens other⟩

def inkAll (p : Page) (told : List (Channel × String)) : Page :=
  told.foldl (fun p piece => p.ink piece.1 (Utf8.ofString piece.2)) p

variable {p : Page} {channel : Channel} {pen : Handle}

theorem inkAll_append (p : Page) (told more : List (Channel × String)) :
    p.inkAll (told ++ more) = (p.inkAll told).inkAll more :=
  List.foldl_append

theorem ink_none (h : p.pens channel = none) (bs : Bytes) : p.ink channel bs = p := by
  rw [ink, h]

theorem ink_other {other : Channel} (h : other ≠ channel) (bs : Bytes) :
    (p.ink channel bs).pens other = p.pens other := by
  unfold ink
  split
  · rfl
  split
  · rfl
  · exact if_neg h

theorem ink_end (h : p.pens channel = some pen) (hend : pen.AtEnd p.content) (bs : Bytes) :
    (p.ink channel bs).content = p.content ++ bs ∧
      ∃ next, (p.ink channel bs).pens channel = some next ∧
        next.AtEnd (p.ink channel bs).content := by
  rw [ink, h]
  dsimp only
  by_cases hbs : bs = []
  · rw [if_pos hbs, hbs, List.append_nil]
    exact ⟨rfl, pen, h, hend⟩
  have hoffset : (if pen.atEnd then p.content.length else pen.offset) = p.content.length := by
    rcases hend with hatEnd | hoffset
    · rw [if_pos hatEnd]
    · rw [hoffset, ite_self]
  rw [if_neg hbs, hoffset, FileTree.overwrite_end]
  exact ⟨rfl, _, if_pos rfl, hend.advance bs⟩

theorem inkAll_sole (h : p.pens channel = some pen) (hend : pen.AtEnd p.content)
    (hsole : ∀ other, other ≠ channel → p.pens other = none) (told : List (Channel × String)) :
    (p.inkAll told).content = p.content ++ (channel.pieces told).flatten := by
  induction told generalizing p pen with
  | nil => exact (List.append_nil _).symm
  | cons piece told ih =>
    obtain ⟨other, text⟩ := piece
    have hsplit : (other, text) :: told = [(other, text)] ++ told := rfl
    rw [hsplit, inkAll_append, Channel.pieces_append, List.flatten_append, ← List.append_assoc]
    by_cases hother : other = channel
    · subst hother
      obtain ⟨hcontent, next, hnext, hlast⟩ := ink_end h hend (Utf8.ofString text)
      rw [Channel.pieces_self, List.flatten_singleton, ← hcontent]
      exact ih hnext hlast fun another hne => (ink_other hne _).trans (hsole another hne)
    · rw [Channel.pieces_other hother, List.flatten_nil, List.append_nil]
      have hsame : p.inkAll [(other, text)] = p := ink_none (hsole other hother) _
      rw [hsame]
      exact ih h hend hsole

end Page

namespace FileTree

theorem write_ink {t u : FileTree} {h k : Handle} {bs content : Bytes} {mode : Nat}
    {p : Page} {channel : Channel} (hn : t.Holds h.loc (some content) mode)
    (hw : t.write h bs = .ok (u, k)) (hpen : p.pens channel = some h)
    (hcontent : p.content = content) :
    u.Holds h.loc (some (p.ink channel bs).content) mode ∧
      (p.ink channel bs).pens channel = some k := by
  rw [Page.ink, hpen]
  dsimp only
  by_cases hbs : bs = []
  · rw [if_pos hbs, hcontent]
    subst hbs
    cases hw
    exact ⟨hn, hpen⟩
  have hnonempty : ¬ bs.isEmpty = true := by simpa using hbs
  rw [if_neg hbs, hcontent]
  have hstored (content : Bytes) :
      (t.put h.loc (.file content mode)).Holds h.loc (some content) mode :=
    .file (hn.put_node _ _)
  unfold write at hw
  cases hn with
  | file hn =>
    simp only [if_neg hnonempty, hn] at hw
    cases hw
    exact ⟨hstored _, if_pos rfl⟩
  | program hn =>
    simp only [if_neg hnonempty, hn] at hw
    cases hw
    exact ⟨hstored _, if_pos rfl⟩

end FileTree

/-- Standard output after the pieces that were put out and the one that was refused. It is
flushed when none was. -/
def Stdout.afterPieces (s : Stdout) (told rest : List (Channel × String)) : Stdout :=
  let pieces := Channel.out.pieces (told ++ rest.take 1)
  if rest = [] then (Sink.emit s pieces).2 else (Sink.writeAll s pieces).2

theorem Sink.writeAll_append {σ : Type} [Sink σ] {sink middle : σ} {told : List Bytes}
    (h : writeAll sink told = (none, middle)) (more : List Bytes) :
    writeAll sink (told ++ more) = writeAll middle more := by
  induction told generalizing sink with
  | nil =>
    cases h
    rfl
  | cons piece told ih =>
    rw [List.cons_append, writeAll]
    rw [writeAll] at h
    rcases hwrite : write sink piece with ⟨_ | e, next⟩ <;> rw [hwrite] at h
    · exact ih h
    · cases h

theorem Stdout.afterPieces_roomy {s : Stdout} (h : s.isFull = false)
    {told rest : List (Channel × String)} (hrest : ∀ piece ∈ rest.head?, piece.1 ≠ .out) :
    (s.afterPieces told rest).written = s.written ++ (Channel.out.pieces told).flatten := by
  obtain ⟨next, hall, hroomy, hwritten⟩ := writeAll_roomy h (Channel.out.pieces told)
  rw [← hwritten]
  cases rest with
  | nil =>
    obtain ⟨last, hflush, hsettled⟩ := flush_roomy hroomy
    show (Sink.emit s (Channel.out.pieces (told ++ []))).2.written = _
    rw [List.append_nil, Sink.emit, hall]
    show next.flush.2.written = _
    rw [hflush]
    exact hsettled.written_eq
  | cons piece later =>
    show (Sink.writeAll s (Channel.out.pieces (told ++ [piece]))).2.written = _
    rw [Channel.pieces_append, Channel.pieces_other (hrest piece rfl), List.append_nil, hall]

def Host.isFull (h : Host) : Channel → Bool
  | .out => h.stdout.isFull
  | .err => h.stderr.isFull

namespace Job

variable {j k m : Job} {channel : Channel} {bs : Bytes}

def At (j : Job) (loc : Location) : Prop :=
  ∃ channel h, j.handle channel = some h ∧ h.loc = loc

def page (j : Job) (loc : Location) (content : Bytes) : Page :=
  ⟨content, fun channel => Handle.at? (j.handle channel) loc⟩

def Refuses (j : Job) (channel : Channel) : Prop :=
  (∃ h, j.handle channel = some h ∧ j.host.tree.node? h.loc = some (.device .full)) ∨
    j.handle channel = none ∧ j.host.isFull channel = true

theorem handle_setHandle (j : Job) (channel other : Channel) (h : Handle) :
    (j.setHandle channel h).handle other = if other = channel then some h else j.handle other := by
  cases channel <;> cases other <;> rfl

theorem setHandle_host (j : Job) (channel : Channel) (h : Handle) :
    (j.setHandle channel h).host = j.host := by
  cases channel <;> rfl

theorem write_done (h : Outlets.write channel j bs = (none, k)) :
    (∃ handle u next, j.handle channel = some handle ∧
        j.host.tree.write handle bs = .ok (u, next) ∧
        k = { j with host.tree := u }.setHandle channel next) ∨
      (channel = .out ∧ j.handle .out = none ∧
        ∃ stdout, j.host.stdout.write bs = (none, stdout) ∧ k = { j with host.stdout := stdout }) ∨
      channel = .err ∧ j.handle .err = none ∧
        ∃ stderr, j.host.stderr.write bs = (none, stderr) ∧ k = { j with host.stderr := stderr } := by
  change writeVia share channel j bs = (none, k) at h
  unfold writeVia at h
  cases hhandle : j.handle channel with
  | some handle =>
    simp only [hhandle] at h
    rcases hwrite : j.host.tree.write handle bs with e | ⟨u, next⟩ <;> rw [hwrite] at h <;> cases h
    exact .inl ⟨handle, u, next, rfl, hwrite, rfl⟩
  | none =>
    simp only [hhandle] at h
    cases channel with
    | out =>
      rcases hwrite : j.host.stdout.write bs with ⟨_ | e, stdout⟩ <;>
        simp only [share, hwrite] at h <;> cases h
      exact .inr (.inl ⟨rfl, hhandle, stdout, rfl, rfl⟩)
    | err =>
      rcases hwrite : j.host.stderr.write bs with ⟨_ | e, stderr⟩ <;>
        simp only [share, hwrite] at h <;> cases h
      exact .inr (.inr ⟨rfl, hhandle, stderr, rfl, rfl⟩)

theorem write_refused {e : OsError} (h : Outlets.write channel j bs = (some e, k)) :
    j.Refuses channel ∧ (k = j ∧ (channel = .out → (j.handle .out).isSome) ∨
      channel = .out ∧ j.handle .out = none ∧
        ∃ stdout, j.host.stdout.write bs = (some e, stdout) ∧
          k = { j with host.stdout := stdout }) := by
  change writeVia share channel j bs = (some e, k) at h
  unfold writeVia at h
  cases hhandle : j.handle channel with
  | some handle =>
    simp only [hhandle] at h
    rcases hwrite : j.host.tree.write handle bs with e | ⟨u, next⟩ <;> rw [hwrite] at h <;> cases h
    refine ⟨.inl ⟨handle, hhandle, ?_⟩, .inl ⟨rfl, ?_⟩⟩
    · by_contra hnode
      obtain ⟨u, next, htaken, -⟩ := FileTree.write_taken hnode bs
      cases hwrite.symm.trans htaken
    · rintro rfl
      rw [hhandle]
      rfl
  | none =>
    simp only [hhandle] at h
    cases channel with
    | out =>
      rcases hwrite : j.host.stdout.write bs with ⟨_ | e, stdout⟩ <;>
        simp only [share, hwrite] at h <;> cases h
      refine ⟨.inr ⟨hhandle, ?_⟩, .inr ⟨rfl, hhandle, stdout, rfl, rfl⟩⟩
      by_contra hroomy
      obtain ⟨next, htaken, -⟩ := Stdout.write_roomy (Bool.not_eq_true _ ▸ hroomy) bs
      cases hwrite.symm.trans htaken
    | err =>
      rcases hwrite : j.host.stderr.write bs with ⟨_ | e, stderr⟩ <;>
        simp only [share, hwrite] at h <;> cases h
      obtain ⟨rfl, hfull⟩ := Stderr.write_refused hwrite
      refine ⟨.inr ⟨hhandle, hfull⟩, .inl ⟨rfl, fun hout => ?_⟩⟩
      cases hout

theorem page_pens (j : Job) (loc : Location) (content : Bytes) (channel : Channel) :
    (j.page loc content).pens channel = Handle.at? (j.handle channel) loc := rfl

theorem page_eq {p : Page} {loc : Location}
    (h : ∀ channel, Handle.at? (j.handle channel) loc = p.pens channel) :
    j.page loc p.content = p :=
  congrArg (Page.mk p.content) (funext h)

theorem page_written {handle next : Handle} {u : FileTree} {loc : Location} {content : Bytes}
    {mode : Nat} (hhandle : j.handle channel = some handle)
    (hwrite : j.host.tree.write handle bs = .ok (u, next))
    (hn : j.host.tree.Holds loc (some content) mode) :
    ∃ left, ({ j with host.tree := u }.setHandle channel next).page loc left =
      (j.page loc content).ink channel bs ∧ u.Holds loc (some left) mode := by
  have hloc : next.loc = handle.loc := (FileTree.write_cases hwrite).1
  let p := (j.page loc content).ink channel bs
  suffices hink : Handle.at? (some next) loc = p.pens channel ∧ u.Holds loc (some p.content) mode by
    refine ⟨p.content, page_eq fun other => ?_, hink.2⟩
    rw [handle_setHandle]
    split
    · rename_i hself
      subst hself
      exact hink.1
    · rename_i hne
      exact (Page.ink_other (p := j.page loc content) hne bs).symm
  by_cases hspot : handle.loc = loc
  · subst hspot
    have hpen : (j.page handle.loc content).pens channel = some handle := by
      rw [page_pens, hhandle, Handle.at?_self]
    obtain ⟨hheld, hnext⟩ := FileTree.write_ink hn hwrite hpen rfl
    refine ⟨?_, hheld⟩
    rw [← hloc, Handle.at?_self]
    exact hnext.symm
  · have hpen : (j.page loc content).pens channel = none := by
      rw [page_pens, hhandle, Handle.at?_other hspot]
    have hp : p = j.page loc content := Page.ink_none hpen bs
    rw [hp, hpen, Handle.at?_other (hloc ▸ hspot)]
    exact ⟨rfl, hn.congr ((FileTree.write_touches hwrite).kept fun h => hspot h.symm)⟩

/-- The second job is the first after these pieces, none of which was refused. -/
structure Delivers (j : Job) (told : List (Channel × String)) (k : Job) : Prop where
  places : ∀ channel, (k.handle channel).map (·.loc) = (j.handle channel).map (·.loc)
  tree : FileTree.Touches j.At j.host.tree k.host.tree
  file : ∀ loc content mode, j.host.tree.Holds loc (some content) mode →
    ∃ left, k.page loc left = (j.page loc content).inkAll told ∧
      k.host.tree.Holds loc (some left) mode
  redirected : (j.handle .out).isSome → k.host.stdout = j.host.stdout
  shared : j.handle .out = none →
    Sink.writeAll j.host.stdout (Channel.out.pieces told) = (none, k.host.stdout)
  stderr : k.host.stderr.bytes = j.host.stderr.bytes ++
    if (j.handle .err).isNone then (Channel.err.pieces told).flatten else []
  room : k.host.stderr.isFull = j.host.stderr.isFull

namespace Delivers

variable {told more : List (Channel × String)} {text : String} {loc : Location}

theorem refl (j : Job) : j.Delivers [] j where
  places _ := rfl
  tree := .refl _ _
  file _ content _ hn := ⟨content, rfl, hn⟩
  redirected _ := rfl
  shared _ := rfl
  stderr := by simp [Channel.pieces]
  room := rfl

theorem isSome (h : j.Delivers told k) (channel : Channel) :
    (k.handle channel).isSome = (j.handle channel).isSome := by
  have hplaces := congrArg Option.isSome (h.places channel)
  rwa [Option.isSome_map, Option.isSome_map] at hplaces

theorem eq_none_iff (h : j.Delivers told k) :
    k.handle channel = none ↔ j.handle channel = none := by
  rw [← Option.not_isSome_iff_eq_none, h.isSome, Option.not_isSome_iff_eq_none]

theorem some_loc {next : Handle} (h : j.Delivers told k) (hnext : k.handle channel = some next) :
    ∃ handle, j.handle channel = some handle ∧ next.loc = handle.loc := by
  have hplaces := h.places channel
  rw [hnext, Option.map_some] at hplaces
  obtain ⟨handle, hhandle, hloc⟩ := Option.map_eq_some_iff.mp hplaces.symm
  exact ⟨handle, hhandle, hloc.symm⟩

theorem at_of (h : j.Delivers told k) (hk : k.At loc) : j.At loc := by
  obtain ⟨channel, next, hnext, rfl⟩ := hk
  obtain ⟨handle, hhandle, hloc⟩ := h.some_loc hnext
  exact ⟨channel, handle, hhandle, hloc.symm⟩

theorem trans (h : j.Delivers told m) (h' : m.Delivers more k) : j.Delivers (told ++ more) k where
  places channel := (h'.places channel).trans (h.places channel)
  tree := h.tree.trans (h'.tree.mono fun _ => h.at_of)
  file loc content mode hn := by
    obtain ⟨middle, hmiddle, hheld⟩ := h.file loc content mode hn
    obtain ⟨left, hleft, hlast⟩ := h'.file loc middle mode hheld
    refine ⟨left, ?_, hlast⟩
    rw [hleft, hmiddle, Page.inkAll_append]
  redirected hsome := (h'.redirected ((h.isSome .out).trans hsome)).trans (h.redirected hsome)
  shared hnone := by
    rw [Channel.pieces_append, Sink.writeAll_append (h.shared hnone)]
    exact h'.shared (h.eq_none_iff.mpr hnone)
  stderr := by
    rw [h'.stderr, h.stderr, ← Option.not_isSome, ← Option.not_isSome, h.isSome .err,
      Channel.pieces_append, List.flatten_append, List.append_assoc]
    split
    · rfl
    · rfl
  room := h'.room.trans h.room

theorem of_file {handle next : Handle} {u : FileTree} (hhandle : j.handle channel = some handle)
    (hwrite : j.host.tree.write handle (Utf8.ofString text) = .ok (u, next)) :
    j.Delivers [(channel, text)] ({ j with host.tree := u }.setHandle channel next) := by
  have hloc : next.loc = handle.loc := (FileTree.write_cases hwrite).1
  have htouches := FileTree.write_touches hwrite
  let k : Job := { j with host.tree := u }.setHandle channel next
  have hself : k.handle channel = some next := (handle_setHandle _ _ _ _).trans (if_pos rfl)
  have hother (other : Channel) (hne : other ≠ channel) : k.handle other = j.handle other :=
    (handle_setHandle _ _ _ _).trans (if_neg hne)
  have hhost : k.host = { j.host with tree := u } := setHandle_host _ _ _
  constructor
  · intro other
    by_cases hne : other = channel
    · rw [hne, hself, hhandle, Option.map_some, Option.map_some, hloc]
    · rw [hother other hne]
  · rw [hhost]
    exact htouches.mono fun loc hspot => ⟨channel, handle, hhandle, hspot.symm⟩
  · intro loc content mode hn
    rw [hhost]
    exact page_written hhandle hwrite hn
  · intro _
    rw [hhost]
  · intro hnone
    have hne : channel ≠ .out := by
      rintro rfl
      cases hnone.symm.trans hhandle
    rw [hhost, Channel.pieces_other hne]
    rfl
  · have hstderr : k.host.stderr = j.host.stderr := by rw [hhost]
    rw [hstderr]
    by_cases hne : channel = .err
    · rw [← hne, hhandle]
      exact (List.append_nil _).symm
    · rw [Channel.pieces_other hne, List.flatten_nil, ite_self, List.append_nil]
  · rw [hhost]

theorem of_shared {h : Host} (hnone : j.handle channel = none) (htree : h.tree = j.host.tree)
    (hstdout : if channel = .out then
      j.host.stdout.write (Utf8.ofString text) = (none, h.stdout) else h.stdout = j.host.stdout)
    (hstderr : h.stderr.bytes =
      j.host.stderr.bytes ++ (Channel.err.pieces [(channel, text)]).flatten)
    (hroom : h.stderr.isFull = j.host.stderr.isFull) :
    j.Delivers [(channel, text)] { j with host := h } := by
  constructor
  · exact fun _ => rfl
  · rw [htree]
    exact .refl _ _
  · intro loc content mode hn
    have hpen : (j.page loc content).pens channel = none := by
      rw [page_pens, hnone]
      rfl
    refine ⟨content, ?_, htree ▸ hn⟩
    rw [show (j.page loc content).inkAll [(channel, text)] = _ from Page.ink_none hpen _]
    rfl
  · intro hsome
    have hne : channel ≠ .out := by
      rintro rfl
      rw [hnone] at hsome
      cases hsome
    rwa [if_neg hne] at hstdout
  · intro _
    by_cases hout : channel = .out
    · subst hout
      rw [if_pos rfl] at hstdout
      rw [Channel.pieces_self, Sink.writeAll, show Sink.write j.host.stdout _ = _ from hstdout]
      rfl
    · rw [if_neg hout] at hstdout
      rw [Channel.pieces_other hout, hstdout]
      rfl
  · rw [hstderr]
    by_cases herr : channel = .err
    · rw [← herr, hnone]
      rfl
    · rw [Channel.pieces_other herr, List.flatten_nil, ite_self]
  · exact hroom

end Delivers

theorem write_delivers {text : String}
    (h : Outlets.write channel j (Utf8.ofString text) = (none, k)) :
    j.Delivers [(channel, text)] k := by
  rcases write_done h with ⟨handle, u, next, hhandle, hwrite, rfl⟩ |
    ⟨rfl, hnone, stdout, hwrite, rfl⟩ | ⟨rfl, hnone, stderr, hwrite, rfl⟩
  · exact .of_file hhandle hwrite
  · exact .of_shared hnone rfl hwrite (List.append_nil _).symm rfl
  · obtain ⟨hbytes, hroom⟩ := Stderr.write_done hwrite
    refine .of_shared hnone rfl rfl ?_ hroom
    rw [Channel.pieces_self, List.flatten_singleton]
    exact hbytes

/-- All pieces are put out, or all that come before one that is refused. -/
theorem writeAll_delivers (j : Job) (pieces : List (Channel × String)) :
    ∃ told rest m, pieces = told ++ rest ∧ j.Delivers told m ∧
      (rest = [] ∧ Outlets.writeAll j pieces = (none, m) ∨
        ∃ piece later e k, rest = piece :: later ∧
          Outlets.write piece.1 m (Utf8.ofString piece.2) = (some e, k) ∧
          Outlets.writeAll j pieces = (some e, k)) := by
  induction pieces generalizing j with
  | nil => exact ⟨[], [], j, rfl, .refl j, .inl ⟨rfl, rfl⟩⟩
  | cons piece pieces ih =>
    rw [Outlets.writeAll]
    rcases hwrite : Outlets.write piece.1 j (Utf8.ofString piece.2) with ⟨_ | e, next⟩
    · obtain ⟨told, rest, m, rfl, hm, hall⟩ := ih next
      exact ⟨piece :: told, rest, m, rfl, (write_delivers hwrite).trans hm, hall⟩
    · exact ⟨[], piece :: pieces, j, rfl, .refl j, .inr ⟨piece, pieces, e, next, rfl, hwrite, rfl⟩⟩

theorem Refuses.of_touches {spots : Location → Prop} (h : k.Refuses channel)
    (hplaces : ∀ channel, (k.handle channel).map (·.loc) = (j.handle channel).map (·.loc))
    (htree : FileTree.Touches spots j.host.tree k.host.tree)
    (hstdout : j.handle .out = none → k.host.stdout.isFull = true → j.host.stdout.isFull = true)
    (hstderr : k.host.stderr.isFull = j.host.stderr.isFull) :
    j.Refuses channel := by
  rcases h with ⟨next, hnext, hfull⟩ | ⟨hnone, hfull⟩
  · have hplace := hplaces channel
    rw [hnext, Option.map_some] at hplace
    obtain ⟨handle, hhandle, hloc⟩ := Option.map_eq_some_iff.mp hplace.symm
    refine .inl ⟨handle, hhandle, ?_⟩
    rw [← hloc] at hfull
    rcases htree handle.loc with hsame | ⟨-, -, content, mode, hfile⟩
    · exact hsame.symm.trans hfull
    · cases hfull.symm.trans hfile
  · have hplace := hplaces channel
    rw [hnone, Option.map_none] at hplace
    have hnone := Option.map_eq_none_iff.mp hplace.symm
    cases channel with
    | out => exact .inr ⟨hnone, hstdout hnone hfull⟩
    | err => exact .inr ⟨hnone, hstderr.symm.trans hfull⟩

/-- Nothing that is put out makes a channel refuse what comes next. -/
theorem Delivers.refuses {told : List (Channel × String)} (h : j.Delivers told m)
    (hm : m.Refuses channel) : j.Refuses channel := by
  refine hm.of_touches h.places h.tree (fun hnone hfull => ?_) h.room
  by_contra hroomy
  obtain ⟨next, hall, hnext, -⟩ :=
    Stdout.writeAll_roomy (by simpa using hroomy) (Channel.out.pieces told)
  cases (h.shared hnone).symm.trans hall
  rw [hfull] at hnext
  cases hnext

theorem flush_host (j : Job) : (Outlets.flush .out j).2.host =
    if (j.handle .out).isSome then j.host else { j.host with stdout := j.host.stdout.flush.2 } := by
  show (j.flush .out).2.host = _
  unfold flush
  cases hstdout : j.streams.stdout with
  | some handle => simp [Job.handle, hstdout]
  | none => simp [Job.handle, hstdout]

theorem emit_delivers (j : Job) (pieces : List (Channel × String)) :
    let k := (Outlets.emit j pieces).2
    ∃ told rest m, pieces = told ++ rest ∧ j.Delivers told m ∧
      (∀ piece ∈ rest.head?, j.Refuses piece.1) ∧
      k.host.tree = m.host.tree ∧ k.host.stderr = m.host.stderr ∧
      k.host.stdout = if (j.handle .out).isSome then j.host.stdout
        else j.host.stdout.afterPieces told rest := by
  intro k
  obtain ⟨told, rest, m, hpieces, hm, hall⟩ := j.writeAll_delivers pieces
  refine ⟨told, rest, m, hpieces, hm, ?_⟩
  rcases hall with ⟨rfl, hall⟩ | ⟨piece, later, e, last, rfl, hwrite, hall⟩
  · have hk : k.host = (Outlets.flush .out m).2.host := by
      show (Outlets.emit j pieces).2.host = _
      rw [Outlets.emit, hall]
      dsimp only [Outlets.flushAll]
      rcases Outlets.flush Channel.out m with ⟨_ | e, next⟩
      · rfl
      · rfl
    have hfirst : ∀ piece ∈ ([] : List (Channel × String)).head?, j.Refuses piece.1 := by
      rintro _ ⟨⟩
    rw [hk, flush_host, hm.isSome]
    cases hstdout : j.handle .out with
    | some handle => exact ⟨hfirst, rfl, rfl, hm.redirected (by rw [hstdout]; rfl)⟩
    | none =>
      refine ⟨hfirst, rfl, rfl, ?_⟩
      show m.host.stdout.flush.2 = (Sink.emit j.host.stdout (Channel.out.pieces (told ++ []))).2
      rw [List.append_nil, Sink.emit, hm.shared hstdout]
      rfl
  · have hk : k = last := by
      show (Outlets.emit j pieces).2 = _
      rw [Outlets.emit, hall]
    obtain ⟨hrefuses, hlast⟩ := write_refused hwrite
    have hfirst : ∀ first ∈ (piece :: later).head?, j.Refuses first.1 := by
      rintro first ⟨⟩
      exact hm.refuses hrefuses
    rw [hk]
    rcases hlast with ⟨rfl, hout⟩ | ⟨hout, hnone, stdout, hstdout, rfl⟩
    · refine ⟨hfirst, rfl, rfl, ?_⟩
      cases hj : j.handle .out with
      | some handle => exact hm.redirected (by rw [hj]; rfl)
      | none =>
        have hother : piece.1 ≠ .out := fun hself => by
          have hsome := hout hself
          rw [hm.eq_none_iff.mpr hj] at hsome
          cases hsome
        show _ = (Sink.writeAll j.host.stdout (Channel.out.pieces (told ++ [piece]))).2
        rw [Channel.pieces_append, Channel.pieces_other hother, List.append_nil, hm.shared hj]
    · have hj := hm.eq_none_iff.mp hnone
      refine ⟨hfirst, rfl, rfl, ?_⟩
      rw [hj]
      show stdout = (Sink.writeAll j.host.stdout (Channel.out.pieces (told ++ [piece]))).2
      obtain ⟨channel, text⟩ := piece
      cases hout
      rw [Channel.pieces_append, Channel.pieces_self, Sink.writeAll_append (hm.shared hj),
        Sink.writeAll, show Sink.write m.host.stdout _ = _ from hstdout]

end Job

/-! ## Running a builtin -/

/-- How the pieces of a builtin come out of an open job. The first ones are put out, and the
next one, if there is any, is refused. -/
structure Job.Puts (j : Job) (told rest : List (Channel × String)) (left : Host) : Prop where
  refused : ∀ piece ∈ rest.head?, j.Refuses piece.1
  tree : FileTree.Touches (fun loc => j.At loc ∨ loc ∈ j.host.logPlace?) j.host.tree left.tree
  file : ∀ loc content mode, loc ∉ j.host.logPlace? → j.host.tree.Holds loc (some content) mode →
    left.tree.Holds loc (some ((j.page loc content).inkAll told).content) mode
  logged : ∀ place threshold logged mode, j.host.Logs place threshold logged mode →
    ∃ noted failed, left.Logs place threshold
      (((j.page place (logged ++ noted)).inkAll told).content ++ failed) mode
  stdout : left.stdout = if (j.handle .out).isSome then j.host.stdout
    else j.host.stdout.afterPieces told rest
  stderr : left.stderr.bytes = j.host.stderr.bytes ++
    if (j.handle .err).isNone then (Channel.err.pieces told).flatten else []

theorem Command.runBuiltin_noted {c : Command} {b : Builtin} {s : Session} {j k : Job}
    {failed? : Option OsError}
    (h : Outlets.emit
      { j with host := j.host.noteAll (b.run s j.host.tree j.host.start c.args).notices }
      (b.run s j.host.tree j.host.start c.args).writes = (failed?, k)) :
    k.host.Noted (c.runBuiltin b s j).2.2 ∧ (c.runBuiltin b s j).2.2.stderr = k.host.stderr := by
  simp only [runBuiltin_emit, h]
  cases failed? with
  | none => exact ⟨.refl _, rfl⟩
  | some e => exact ⟨k.host.note_noted _, k.host.stderr_note _⟩

theorem Command.runBuiltin_puts (c : Command) (b : Builtin) (s : Session) (j : Job) :
    ∃ told rest, (b.run s j.host.tree j.host.start c.args).writes = told ++ rest ∧
      j.Puts told rest (c.runBuiltin b s j).2.2 := by
  let report := b.run s j.host.tree j.host.start c.args
  let noted : Job := { j with host := j.host.noteAll report.notices }
  have hnoted : j.host.Noted noted.host := j.host.noteAll_noted report.notices
  obtain ⟨told, rest, m, hwrites, hm, hrefused, htree, hstderr, hstdout⟩ :=
    noted.emit_delivers report.writes
  obtain ⟨hlast, hlastStderr⟩ := Command.runBuiltin_noted
    (show Outlets.emit noted report.writes = (_, (Outlets.emit noted report.writes).2) from rfl)
  have hfile : (Outlets.emit noted report.writes).2.host.journal.file = noted.host.journal.file :=
    congrArg Journal.file (noted.emit_journal report.writes)
  have hlog : (Outlets.emit noted report.writes).2.host.logPlace? = j.host.logPlace? := by
    rw [Host.logPlace?, hfile]
    exact hnoted.logPlace
  have hwarned := hlast.tree
  rw [show Host.logPlace? _ = _ from hlog, show Host.tree _ = _ from htree] at hwarned
  refine ⟨told, rest, hwrites, ?_⟩
  constructor
  · exact fun piece hpiece => (hrefused piece hpiece).of_touches (fun _ => rfl) hnoted.tree
      (fun _ hfull => hnoted.stdout ▸ hfull) (congrArg Stderr.isFull (j.host.stderr_noteAll _))
  · have hput := hm.tree.mono fun loc hat => (.inl hat : j.At loc ∨ loc ∈ j.host.logPlace?)
    exact ((hnoted.tree.mono fun _ => .inr).trans hput).trans (hwarned.mono fun _ => .inr)
  · intro loc content mode hunlogged hheld
    obtain ⟨left, hpage, hput⟩ := hm.file loc _ mode (hheld.congr (hnoted.tree.kept hunlogged))
    have hleft : left = ((j.page loc content).inkAll told).content := congrArg Page.content hpage
    rw [← hleft]
    exact hput.congr (hwarned.kept hunlogged)
  · intro place threshold logged mode hl
    obtain ⟨more, hmore⟩ := hnoted.logs place threshold logged mode hl
    obtain ⟨left, hpage, hput⟩ := hm.file place _ mode hmore.held
    have hleft : left = ((j.page place (logged ++ more)).inkAll told).content :=
      congrArg Page.content hpage
    have hlogs : (Outlets.emit noted report.writes).2.host.Logs place threshold left mode := by
      refine ⟨?_, htree ▸ hput⟩
      rw [hfile]
      exact hmore.file
    rw [hleft] at hlogs
    exact ⟨more, hlast.logs _ _ _ _ hlogs⟩
  · rw [hlast.stdout, ← hnoted.stdout]
    exact hstdout
  · rw [hlastStderr, hstderr, hm.stderr, Host.stderr_noteAll]
    rfl

end LineShell
