import LineShell.Proofs.Opening

/-!
# Streams that cannot be opened

The streams are opened one after the other until one of them fails. Only what was
opened for writing before has left anything in the tree, and that is standard output:
its file was made, or it was emptied. A command whose streams fail is reported in one
message and does nothing else.
-/

set_option autoImplicit false

namespace LineShell

namespace FileTree

/-- The tree when a target is open for writing: its file is there as it was, or it was
made, or what was in it is gone. -/
inductive Readied (t : FileTree) (start : Location) (target : Redirect.Target) : FileTree → Prop
  | kept : Readied t start target t
  | made {loc : Location} (leads : t.follow start .makeFile target.path = .ok (.vacant loc)) :
      Readied t start target (t.put loc (.file [] newFileMode))
  | emptied {loc : Location} {node : Node} {content : Bytes} {mode : Nat}
      (leads : t.follow start .makeFile target.path = .ok (.found loc node))
      (held : t.Holds loc (some content) mode) (truncates : target.mode = .truncate) :
      Readied t start target (t.put loc (.file [] mode))

theorem openForWriting_readied {t u : FileTree} {start : Location} {target : Redirect.Target}
    {handle : Handle}
    (h : t.openForWriting start (target.mode = .append) target.path = .ok (u, handle)) :
    t.Readied start target u := by
  unfold openForWriting at h
  split at h
  · cases h
  · rename_i loc hfollow
    cases h
    exact .made hfollow
  rename_i loc node hfollow
  have hnode := follow_found hfollow
  cases hmode : target.mode with
  | append =>
    rw [hmode] at h
    split at h <;> cases h <;> exact .kept
  | truncate =>
    rw [hmode] at h
    split at h
    · cases h
    · cases h
      exact .emptied hfollow (.file hnode) hmode
    · cases h
      exact .emptied hfollow (.program hnode) hmode
    · cases h
      exact .kept
    · cases h
      exact .kept

end FileTree

namespace Streams

/-- The ways in which the streams of a table fail to open, with the error and the tree that is
left. What comes after the target that failed is not looked at. -/
inductive Fails (t : FileTree) (start : Location) (table : Redirect.Table) :
    OpenError → FileTree → Prop
  | input {target : Redirect.Target} {cause : OsError} (asked : table .stdinRead = some target)
      (refused : t.look start target.path = .error cause) :
      Fails t start table ⟨target.path, cause⟩ t
  | output {stdin : Option Location} {target : Redirect.Target} {cause : OsError}
      (read : openInput t start (table .stdinRead) = .ok stdin)
      (asked : table.effective .stdoutWrite .stdoutAppend = some target)
      (refused : t.openForWriting start (target.mode = .append) target.path = .error cause) :
      Fails t start table ⟨target.path, cause⟩ t
  | error {stdin : Option Location} {stdout : Option Handle} {left : FileTree}
      {target : Redirect.Target} {cause : OsError}
      (read : openInput t start (table .stdinRead) = .ok stdin)
      (written : openOutput t start (table.effective .stdoutWrite .stdoutAppend) =
        .ok (left, stdout))
      (asked : table.effective .stderrWrite .stderrAppend = some target)
      (refused : left.openForWriting start (target.mode = .append) target.path = .error cause)
      (readied : left = t ∨
        ∃ out, table.effective .stdoutWrite .stdoutAppend = some out ∧ t.Readied start out left) :
      Fails t start table ⟨target.path, cause⟩ left

variable {t left : FileTree} {start : Location} {table : Redirect.Table}
  {target? : Option Redirect.Target} {e : OpenError}

theorem openInput_error (h : openInput t start target? = .error e) :
    ∃ target cause, target? = some target ∧ t.look start target.path = .error cause ∧
      e = ⟨target.path, cause⟩ := by
  unfold openInput at h
  split at h
  · cases h
  · rename_i target
    split at h
    · cases h
    · rename_i cause hlook
      cases h
      exact ⟨target, cause, rfl, hlook, rfl⟩

theorem openOutput_opens {u : FileTree} {handle : Handle} {target : Redirect.Target}
    (h : t.openForWriting start (target.mode = .append) target.path = .ok (u, handle)) :
    openOutput t start (some target) = .ok (u, some handle) := by
  rw [openOutput, h]

theorem openOutput_refused {target : Redirect.Target} {cause : OsError}
    (h : t.openForWriting start (target.mode = .append) target.path = .error cause) :
    openOutput t start (some target) = .error ⟨target.path, cause⟩ := by
  rw [openOutput, h]

theorem openOutput_error (h : openOutput t start target? = .error e) :
    ∃ target cause, target? = some target ∧
      t.openForWriting start (target.mode = .append) target.path = .error cause ∧
      e = ⟨target.path, cause⟩ := by
  unfold openOutput at h
  split at h
  · cases h
  · rename_i target
    split at h
    · cases h
    · rename_i cause hopen
      cases h
      exact ⟨target, cause, rfl, hopen, rfl⟩

theorem openOutput_readied {handle? : Option Handle}
    (h : openOutput t start target? = .ok (left, handle?)) :
    left = t ∨ ∃ target, target? = some target ∧ t.Readied start target left := by
  rcases openOutput_cases h with ⟨-, -, hkept⟩ | ⟨target, handle, htarget, -, hopen⟩
  · exact .inl hkept
  · exact .inr ⟨target, htarget, FileTree.openForWriting_readied hopen⟩

theorem ofTable_fails (h : ofTable t start table = (.error e, left)) :
    Fails t start table e left := by
  unfold ofTable at h
  split at h
  · rename_i hread
    cases h
    obtain ⟨target, cause, hasked, hrefused, rfl⟩ := openInput_error hread
    exact .input hasked hrefused
  rename_i hread
  split at h
  · rename_i hwrite
    cases h
    obtain ⟨target, cause, hasked, hrefused, rfl⟩ := openOutput_error hwrite
    exact .output hread hasked hrefused
  rename_i hwritten
  split at h
  · rename_i hwrite
    cases h
    obtain ⟨target, cause, hasked, hrefused, rfl⟩ := openOutput_error hwrite
    exact .error hread hwritten hasked hrefused (openOutput_readied hwritten)
  · cases h

end Streams

namespace Command

/-- If a stream cannot be opened, the shell says so on its standard error, and this is all
that the command does. Before the failing target, that of standard output may have been
readied. -/
theorem execute_unopened (c : Command) (s : Session) (h : Host) {e : OpenError}
    (hfails : (Streams.ofTable h.tree h.start c.redirects).1 = .error e) :
    let left := (Streams.ofTable h.tree h.start c.redirects).2
    let message := "keysh: " ++ e.path.text ++ ": " ++ e.cause.message ++ "\n"
    c.execute s h =
        (.goOn 1, s, { h with
          tree := left
          stderr := h.stderr.push (Utf8.ofString message) }) ∧
      Streams.Fails h.tree h.start c.redirects e left := by
  intro left message
  have hopened : Streams.ofTable h.tree h.start c.redirects = (.error e, left) :=
    Prod.ext hfails rfl
  have hmessage : message = s!"keysh: {e.message}" ++ "\n" := by
    show _ = "keysh: " ++ (e.path.text ++ ": " ++ e.cause.message) ++ "\n"
    simp only [message, String.append_assoc]
  refine ⟨?_, Streams.ofTable_fails hopened⟩
  rw [execute, hopened, hmessage]
  rfl

theorem execute_unopened_emptied :
    let t : FileTree := ⟨[(["o"], .file [0x78] 0o644)]⟩
    let h : Host := ⟨t, [], none, .opened false, .empty, ⟨[], none, ""⟩⟩
    let table := (Redirect.Table.empty.set .stdoutWrite ⟨⟨"/o"⟩, .truncate⟩).set .stderrWrite
      ⟨⟨"/"⟩, .truncate⟩
    let c : Command := ⟨"echo", ["hi"], table⟩
    let s : Session := ⟨⟨"/"⟩, none, ⟨[]⟩⟩
    (Streams.ofTable h.tree h.start c.redirects).1 = .error ⟨⟨"/"⟩, .isDirectory⟩ ∧
      ∃ left, left.node? ["o"] = some (.file [] 0o644) ∧
        c.execute s h = (.goOn 1, s, { h with
          tree := left
          stderr := h.stderr.push
            (Utf8.ofString "keysh: /: Is a directory (os error 21)\n") }) := by
  intro t h table c s
  have hroot := t.look_root []
  have hname : FileName "o" := by decide +kernel
  have hjoin : (Path.mk "/").join "o" = ⟨"/o"⟩ := by decide +kernel
  obtain ⟨left, hopen, hheld, -⟩ := FileTree.openForWriting_child hroot hname
    (by decide +kernel) (.file rfl : t.Holds ["o"] (some [0x78]) 0o644) false
  rw [hjoin] at hopen
  have hrefused : left.openForWriting [] false ⟨"/"⟩ = .error .isDirectory := by
    have hfollow : left.follow [] .makeFile ⟨"/"⟩ = .ok (.found [] .directory) := by
      rw [FileTree.follow, if_neg (by decide +kernel), if_neg (by decide),
        if_neg (by decide +kernel), ite_self, show (Path.mk "/").steps = [] by decide +kernel,
        FileTree.walk]
      rfl
    rw [FileTree.openForWriting, hfollow]
  have hopened : Streams.ofTable h.tree h.start c.redirects =
      (.error ⟨⟨"/"⟩, .isDirectory⟩, left) := by
    have hout : Streams.openOutput t [] (table.effective .stdoutWrite .stdoutAppend) =
        .ok (left, some ⟨["o"], 0, false⟩) := Streams.openOutput_opens hopen
    have herr : Streams.openOutput left [] (table.effective .stderrWrite .stderrAppend) =
        .error ⟨⟨"/"⟩, .isDirectory⟩ := Streams.openOutput_refused hrefused
    have hin : Streams.openInput t [] (table .stdinRead) = .ok none := rfl
    simp only [Streams.ofTable, h, c, hin, hout, herr]
  have hfails := congrArg Prod.fst hopened
  refine ⟨hfails, left, hheld.node (by decide), ?_⟩
  have hran := (execute_unopened c s h hfails).1
  rw [hopened] at hran
  exact hran

end Command

end LineShell
