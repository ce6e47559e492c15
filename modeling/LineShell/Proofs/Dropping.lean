import LineShell.Proofs.Children
import LineShell.Proofs.Earlier
import LineShell.Proofs.Requests

/-!
# Dropped redirects

A redirect that has no target, or whose target cannot be resolved, takes part in
nothing but the reports: a line that has it does what the line without it does,
with one more message among those about redirects and one more notice. A log
file that takes this notice is the one place where the two differ, as long as no
program copies it.
-/

set_option autoImplicit false

namespace LineShell

namespace Resolved

section After

variable {σ : Type} {resolve : Redirect.Resolver σ} {r : Resolved σ}

def after (errors : List Redirect.Error) (notices : List Notice) (r : Resolved σ) : Resolved σ :=
  { r with errors := errors ++ r.errors, notices := notices ++ r.notices }

variable (errors : List Redirect.Error) (notices : List Notice)

end After

open Redirect (resolveIn)

variable {start : Location} {base : Path} {r : Resolved FileTree} {target : String}
  {kind : Redirect.Kind}

theorem ofLine_redirect {tree : FileTree} {line operator : String} {e : Redirect.Error}
    (hline : splitWords line = [.redirect operator kind target]) (ht : target ≠ "")
    (he : (resolveIn start base kind target tree).result = .error e) :
    ofLine (resolveIn start base) tree line =
      ⟨[], .empty, [e], [⟨.warn, s!"dropping redirect {operator} {target}: {e.message}"⟩],
        tree⟩ := by
  obtain ⟨hstate, hnotices⟩ := Redirect.resolveIn_error he
  have hstep : step (resolveIn start base) (.start tree) (.redirect operator kind target) = _ :=
    step_error ht he
  rw [ofLine, hline]
  refine hstep.trans ?_
  rw [Resolved.start, hstate, hnotices]
  rfl

end Resolved

namespace Host

variable (h : Host) (errors : List Redirect.Error)

def messages (errors : List Redirect.Error) : Bytes :=
  errors.flatMap fun e => Utf8.ofString (s!"keysh: {e.message}" ++ "\n")

theorem complainAll_eq : ∃ taken : Transcript,
    h.complainAll errors = { h with stderr.taken := taken } ∧
      taken.bytes = h.stderr.bytes ++ messages errors := by
  induction errors generalizing h with
  | nil => exact ⟨h.stderr.taken, rfl, (List.append_nil _).symm⟩
  | cons e errors ih =>
    obtain ⟨taken, hall, hbytes⟩ := ih (h.complain s!"keysh: {e.message}")
    refine ⟨taken, hall, ?_⟩
    have hfirst : (h.complain s!"keysh: {e.message}").stderr.bytes =
        h.stderr.bytes ++ Utf8.ofString (s!"keysh: {e.message}" ++ "\n") :=
      Stderr.bytes_push _ _
    rw [hbytes, hfirst, messages, messages, List.flatMap_cons, List.append_assoc]

end Host

namespace Shell

theorem reading_extends (sh : Shell) (line : String) :
    sh.host.tree.Extends (sh.reading line).state :=
  Resolved.run_extends sh.host.start sh.session.cwd (Resolved.start sh.host.tree) (splitWords line)

theorem reported_stderr (sh : Shell) (r : Resolved FileTree) :
    (sh.reported r).stderr.bytes = sh.host.stderr.bytes ++ Host.messages r.errors := by
  obtain ⟨taken, hall, hbytes⟩ :=
    Host.complainAll_eq ({ sh.host with tree := r.state }.noteAll r.notices) r.errors
  rw [reported, hall]
  exact hbytes.trans (by rw [Host.stderr_noteAll])

theorem runLine_stderr (sh : Shell) (line : String) :
    ∃ written, (sh.runLine line).2.host.stderr.bytes =
      sh.host.stderr.bytes ++ Host.messages (sh.reading line).errors ++ written := by
  let h := sh.reported (sh.reading line)
  have hpast : Host.Apart none h.earlier h.earlier h h :=
    ⟨h.afresh, h.afresh, .refl _ _, nofun, h.since_earlier.symm, h.since_earlier.symm⟩
  obtain ⟨flow, session, _, _, hran, -, g, -, -, -, rfl, -⟩ :=
    sh.perform_keeps (Host.apart_similar none _ _) (sh.reading line).command? nofun hpast
  rw [runLine_perform, hran, ← reported_stderr]
  exact ⟨g.stderr.bytes, Transcript.bytes_append _ _⟩

def logging (threshold : Level) : Shell :=
  ofSession ⟨"$ ", true, [], threshold.name, "/log"⟩ ⟨⟨"/"⟩, none, ⟨[]⟩⟩
    ⟨⟨[(["log"], .file [] 0o644)]⟩, [], none, .opened false, .empty,
      ⟨[], some (⟨["log"], 0, true⟩, threshold), "00:00:00"⟩⟩

theorem lacksParent_unused {t : FileTree} (hn : t.node? ["n"] = none) :
    Redirect.LacksParent [] t ((Path.mk "/").join "n/f") := by
  have hjoin : (Path.mk "/").join "n/f" = ⟨"/n/f"⟩ := by decide +kernel
  have hparent : (Path.mk "/n/f").parent? = some ⟨"/n"⟩ := by decide +kernel
  have hname : FileName "n" := by decide +kernel
  have hnone : t.isDirectory [] ⟨"/n"⟩ = false := by
    rw [FileTree.isDirectory, FileTree.look,
      show Path.mk "/n" = (Path.mk "/").join "n" by decide +kernel,
      FileTree.follow_unused (t.look_root []) hname (by decide +kernel) .look hn]
  rw [Redirect.LacksParent, hjoin, hparent, Option.any_some, hnone]
  rfl

end Shell

end LineShell
