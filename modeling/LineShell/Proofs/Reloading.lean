import LineShell.Config.Load
import LineShell.Proofs.Growth
import LineShell.Proofs.Utf8
import LineShell.Proofs.WrittenDocuments

/-!
# A shown configuration loads again

The text that shows a configuration is a document, and as the file of a user it
makes the standard configuration the one that was shown. Directories are merged,
so a list that names one twice would come back shorter.
-/

set_option autoImplicit false

namespace LineShell

theorem mapM_map_some {α β : Type} {f : α → β} {g : β → Option α} (h : ∀ a, g (f a) = some a)
    (items : List α) : (items.map f).mapM g = some items := by
  induction items with
  | nil => rfl
  | cons a items ih => rw [List.map_cons, List.mapM_cons, h, ih]; rfl

theorem Utf8.decode?_ofString (s : String) : Utf8.decode? (Utf8.ofString s) = some s.toList := by
  rw [Utf8.decode?, Utf8.ofString, Utf8.scan_encode]
  exact mapM_map_some (f := some) (g := id) (fun _ => rfl) s.toList

namespace Config
open Toml

def sections (c : Config) : List Section :=
  [⟨"prompt", [.string "text" c.prompt]⟩,
    ⟨"completion", [.boolean "executables" c.executables, .strings "extra_dirs" c.extraDirs]⟩,
    ⟨"logging", [.string "level" c.level, .string "file" c.logFile]⟩]

theorem toToml_sections (c : Config) :
    c.toToml.toList = ['\n'].intercalate (c.sections.map Section.source) := String.toList_ofList

theorem sections_valid (c : Config) : ∀ s ∈ c.sections, s.Valid := by
  have hprompt : ∀ t ∈ [Setting.string "text" c.prompt], t.Valid :=
    List.forall_mem_singleton.mpr (Setting.string_valid (by decide) _)
  have hcompletion : ∀ t ∈ [Setting.boolean "executables" c.executables,
      Setting.strings "extra_dirs" c.extraDirs], t.Valid :=
    List.forall_mem_cons.mpr ⟨Setting.boolean_valid (by decide) _,
      List.forall_mem_singleton.mpr (Setting.strings_valid (by decide) _)⟩
  have hlogging : ∀ t ∈ [Setting.string "level" c.level, Setting.string "file" c.logFile],
      t.Valid :=
    List.forall_mem_cons.mpr ⟨Setting.string_valid (by decide) _,
      List.forall_mem_singleton.mpr (Setting.string_valid (by decide) _)⟩
  have hbare : ∀ name ∈ ["prompt", "completion", "logging"], IsBare name := by decide
  have hnames : ∀ names ∈ [["text"], ["executables", "extra_dirs"], ["level", "file"]],
      names.Nodup := by decide
  rw [sections, List.forall_mem_cons, List.forall_mem_cons, List.forall_mem_singleton]
  exact ⟨⟨hbare _ (by simp), hprompt, hnames ["text"] (by simp)⟩,
    ⟨hbare _ (by simp), hcompletion, hnames ["executables", "extra_dirs"] (by simp)⟩,
    ⟨hbare _ (by simp), hlogging, hnames ["level", "file"] (by simp)⟩⟩

theorem sections_distinct (c : Config) : (c.sections.map Section.name).Nodup := by
  show ["prompt", "completion", "logging"].Nodup
  decide

theorem parse?_toToml (c : Config) : parse? c.toToml.toList =
    some [("prompt", .table [("text", .string c.prompt)]),
      ("completion", .table [("executables", .boolean c.executables),
        ("extra_dirs", .array (c.extraDirs.map .string))]),
      ("logging", .table [("level", .string c.level), ("file", .string c.logFile)])] := by
  rw [toToml_sections]
  exact parse?_sections c.sections_valid c.sections_distinct

theorem strings?_map (items : List String) : strings? (.array (items.map .string)) = some items :=
  mapM_map_some (f := Value.string) (g := string?) (fun _ => rfl) items

theorem addMissing_distinct {base add : List String} (h : (base ++ add).Nodup) :
    addMissing base add = base ++ add := by
  induction add generalizing base with
  | nil => simp [addMissing]
  | cons item add ih =>
    have hnew : item ∉ base := fun hmem => List.disjoint_of_nodup_append h hmem (by simp)
    have hrest : addMissing (base ++ [item]) add = base ++ [item] ++ add := ih (by simpa using h)
    show addMissing (if base.contains item then base else base ++ [item]) add = _
    rw [if_neg (by simpa using hnew), hrest, List.append_assoc]
    rfl

def overlay (c : Config) : Overlay :=
  ⟨some c.prompt, false, some c.executables, c.extraDirs, [], some c.level, some c.logFile⟩

theorem ofDocument?_toToml (c : Config) :
    (parse? c.toToml.toList).bind Overlay.ofDocument? = some c.overlay := by
  rw [parse?_toToml]
  show Overlay.ofDocument? _ = _
  simp [Overlay.ofDocument?, settingsOf, slot?, List.lookup_cons, optional, withDefault, string?, boolean?,
    strings?_map, overlay]

theorem apply_overlay (c : Config) (h : c.extraDirs.Nodup) : standard.apply c.overlay = c := by
  have hdirs : addMissing [] c.extraDirs = c.extraDirs := addMissing_distinct h
  simp [apply, overlay, mergeList, standard, hdirs]

/-- The file of a user that holds the text of a configuration is fit, and with it the
configuration that is loaded is that one. -/
theorem load_toToml (c : Config) (hdistinct : c.extraDirs.Nodup) :
    (∃ overlay, (parse? c.toToml.toList).bind Overlay.ofDocument? = some overlay ∧
      standard.apply overlay = c) ∧
    ∀ (t : FileTree) (start : Location) (env : Environment) (home : String) (place : Location)
      (mode : Nat), env.home = some home →
      t.look start ((Path.mk home).join overlayFile) = .ok (place, .file (Utf8.ofString c.toToml) mode) →
      load t start env = (c, false) := by
  refine ⟨⟨c.overlay, ofDocument?_toToml c, apply_overlay c hdistinct⟩, ?_⟩
  intro t start env home place mode hhome hlook
  have htext : fileText? t start ((Path.mk home).join overlayFile) = some c.toToml.toList := by
    rw [fileText?, hlook]
    exact Utf8.decode?_ofString c.toToml
  rw [load, hhome, Option.bind_some, htext]
  dsimp only
  rw [ofDocument?_toToml]
  dsimp only
  rw [apply_overlay c hdistinct]

/-- Quotes of both kinds in a row, a line break, control characters and two directories. -/
theorem load_toToml_quotes :
    let c : Config := ⟨"\x27\x27\x27\n\x1b\"\"\"\\ ", false, ["/opt/bin", "é\t'"], "debug", "\"\"\""⟩
    let content := Utf8.ofString c.toToml
    let place := [".config", "keysh", "config.toml"]
    let tree : FileTree := ⟨[([".config"], .directory), ([".config", "keysh"], .directory),
      (place, .file content 0o644)]⟩
    c.extraDirs.Nodup ∧
      tree.look [] ((Path.mk "/").join overlayFile) = .ok (place, .file content 0o644) ∧
      load tree [] ⟨some "/", none⟩ = (c, false) := by
  intro c content place tree
  have hdistinct : c.extraDirs.Nodup := by decide
  have hnode : tree.node? place = some (.file content 0o644) := rfl
  have hwalk : tree.walk .look FileTree.linkLimit [] place false =
      .ok (.found place (.file content 0o644)) := by
    rw [FileTree.walk_directory ⟨by decide, by decide, by decide, by decide⟩ rfl,
      FileTree.walk_directory ⟨by decide, by decide, by decide, by decide⟩ rfl,
      FileTree.walk_leaf ⟨by decide, by decide, by decide, by decide⟩ hnode (by simp) (by simp)]
    rfl
  have hfollow : tree.follow [] .look ((Path.mk "/").join overlayFile) =
      .ok (.found place (.file content 0o644)) := by
    have hpath : (Path.mk "/").join overlayFile = ⟨"/.config/keysh/config.toml"⟩ := by decide
    have hsteps : Path.steps ⟨"/.config/keysh/config.toml"⟩ = place := by decide
    rw [hpath, FileTree.follow, if_neg (by decide), if_neg (by decide), if_neg (by decide), hsteps]
    exact hwalk
  have hlook : tree.look [] ((Path.mk "/").join overlayFile) = .ok (place, .file content 0o644) := by
    rw [FileTree.look, hfollow]
  exact ⟨hdistinct, hlook, (load_toToml c hdistinct).2 tree [] _ "/" place 0o644 rfl hlook⟩

end Config

end LineShell
