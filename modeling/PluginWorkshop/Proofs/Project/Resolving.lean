import PluginWorkshop.Project.Basic
import PluginWorkshop.Proofs.Machine.Operations

/-!
# Resolving a project

Looking for a project changes nothing (`resolve_ok`). A manifest that is saved where one was found
is found there again (`loadManifest_of_saveManifest`).
-/

namespace PluginWorkshop.Project

variable {machine machine' : Machine} {root path : Path} {manifest : Manifest}

/-- The root of a project, absolute and without dots where it can be followed. -/
def canonicalRoot (machine : Machine) (root : Path) : Path :=
  ((Os.canonical machine root).toOption).getD root

/-- Where the manifest of the project at a root lies. -/
def manifestPath (machine : Machine) (root : Path) : Path :=
  Path.join (canonicalRoot machine root) manifestFile

theorem isFile_iff : Os.isFile machine path = true ↔
    ∃ content modified, Os.entryAt machine path = .ok (.file content modified) := by
  rw [Os.isFile]
  cases Os.entryAt machine path with
  | error e => simp
  | ok entry => cases entry <;> simp [FileTree.isFile]

theorem fromUTF8?_toUTF8 (text : String) : String.fromUTF8? text.toUTF8 = some text := by
  rw [String.fromUTF8?]
  exact dif_pos text.isValidUTF8

/-- The text of a file is read without a change of the machine. -/
theorem readText_eq_ok {text : String} : Files.readText path machine = .ok text machine' ↔
    machine = machine' ∧ ∃ content modified,
      Os.entryAt machine path = .ok (.file content modified) ∧
        String.fromUTF8? content = some text := by
  rw [Files.readText, Os.orFail_eq_ok, Os.readText, Os.look_eq_ok, and_comm]
  refine and_congr_right fun _ => ?_
  cases Os.entryAt machine path with
  | error e => simp [bind, Except.bind]
  | ok entry =>
    cases entry with
    | directory entries => simp [bind, Except.bind]
    | file content modified =>
      cases hcontent : String.fromUTF8? content <;>
        simp [bind, Except.bind, pure, Except.pure, hcontent]

/-- A manifest is loaded from a file that holds its text. -/
theorem loadManifest_eq_ok : loadManifest path machine = .ok manifest machine' ↔
    machine = machine' ∧ ∃ content modified text,
      Os.entryAt machine path = .ok (.file content modified) ∧
        String.fromUTF8? content = some text ∧ Manifest.parse path text = .ok manifest := by
  rw [loadManifest, get_bind]
  constructor
  · intro h
    split at h
    · obtain ⟨text, _, hread, h⟩ := bind_eq_ok.mp h
      obtain ⟨rfl, content, modified, hfile, htext⟩ := readText_eq_ok.mp hread
      obtain ⟨hparse, rfl⟩ := ofExcept_eq_ok.mp h
      exact ⟨rfl, content, modified, text, hfile, htext, hparse⟩
    · simp at h
  · rintro ⟨rfl, content, modified, text, hfile, htext, hparse⟩
    rw [if_pos (isFile_iff.mpr ⟨content, modified, hfile⟩)]
    exact bind_eq_ok.mpr ⟨text, machine, readText_eq_ok.mpr ⟨rfl, content, modified, hfile, htext⟩,
      ofExcept_eq_ok.mpr ⟨hparse, rfl⟩⟩

theorem onlyLooks_readText (path : Path) : OnlyLooks (Files.readText path) :=
  Os.OnlyLooks.orFail (Os.onlyLooks_look _) _

theorem onlyLooks_loadManifest (path : Path) : OnlyLooks (loadManifest path) := by
  rw [loadManifest]
  refine onlyLooks_get.bind fun machine => ?_
  split
  · exact (onlyLooks_readText path).bind fun text => onlyLooks_ofExcept _
  · exact onlyLooks_throw _

/-- Looking for a project changes nothing, whether or not there is one. -/
theorem onlyLooks_resolve (root : Path) : OnlyLooks (resolve root) := by
  rw [resolve]
  refine onlyLooks_get.bind fun machine => ?_
  refine (onlyLooks_loadManifest _).bind fun manifest => ?_
  split
  · exact onlyLooks_throw _
  refine (onlyLooks_ofExcept _).bind fun mapping => ?_
  refine onlyLooks_get.bind fun machine => ?_
  split
  · exact onlyLooks_throw _
  · exact onlyLooks_pure _

/-- A project that is found has been looked for without a change of the machine. -/
theorem resolve_eq_ok {project : Project} (h : resolve root machine = .ok project machine') :
    machine = machine' ∧ project.root = canonicalRoot machine root ∧
      loadManifest (manifestPath machine root) machine = .ok project.manifest machine ∧
      project.manifest.hasDependency basePackage = true ∧
      project.manifest.namespaceMapping project.root = .ok project.mapping ∧
      project.mainFile = Path.join project.root (project.slug ++ ".php") ∧
      Os.isFile machine project.mainFile = true ∧
      project.slug = (Path.fileName? project.root).getD "" ∧ project.slug ≠ "" := by
  rw [resolve, get_bind, ← canonicalRoot] at h
  generalize hroot : canonicalRoot machine root = canonical at h
  obtain ⟨manifest, _, hload, h⟩ := bind_eq_ok.mp h
  obtain ⟨rfl, -⟩ := loadManifest_eq_ok.mp hload
  rw [← hroot, ← manifestPath] at hload
  dsimp only at h
  split at h
  · exact absurd h throw_bind_ne_ok
  next hdependency =>
  obtain ⟨mapping, _, hmapped, h⟩ := bind_eq_ok.mp h
  obtain ⟨hmapping, rfl⟩ := ofExcept_eq_ok.mp hmapped
  rw [get_bind] at h
  split at h
  · exact absurd h throw_bind_ne_ok
  next hmain =>
  obtain ⟨rfl, rfl⟩ := pure_eq_ok.mp h
  rw [Bool.not_eq_true, Bool.or_eq_false_iff, Bool.not_eq_false'] at hmain
  refine ⟨rfl, rfl, hload, by simpa using hdependency, hmapping, ?_⟩
  dsimp only
  exact ⟨rfl, hmain.2, rfl, by simpa using hmain.1⟩

/-- The plugin at an absolute root has its main file. -/
def HasMainFile (machine : Machine) (root : Path) : Prop :=
  (Path.fileName? root).getD "" ≠ "" ∧
    Os.isFile machine (Path.join root ((Path.fileName? root).getD "" ++ ".php")) = true

theorem hasMainFile_of_resolve {project : Project}
    (h : resolve root machine = .ok project machine') :
    HasMainFile machine (canonicalRoot machine root) := by
  obtain ⟨-, hroot, -, -, -, hmainFile, hmain, hslug, hne⟩ := resolve_eq_ok h
  rw [HasMainFile, ← hroot, ← hslug, ← hmainFile]
  exact ⟨hne, hmain⟩

/-- The slug is the name of the root directory. -/
theorem fileName?_of_resolve {project : Project} (h : resolve root machine = .ok project machine') :
    Path.fileName? project.root = some project.slug := by
  obtain ⟨-, -, -, -, -, -, -, hslug, hne⟩ := resolve_eq_ok h
  rw [hslug] at hne ⊢
  cases hname : Path.fileName? project.root with
  | none => simp [hname] at hne
  | some name => rfl

/-- A project is found where there is a manifest with the base library and a namespace mapping, and
a main file. -/
theorem exists_resolve {mapping : NamespaceMapping}
    (hload : loadManifest (manifestPath machine root) machine = .ok manifest machine)
    (hbase : manifest.hasDependency basePackage = true)
    (hmapping : manifest.namespaceMapping (canonicalRoot machine root) = .ok mapping)
    (hmain : HasMainFile machine (canonicalRoot machine root)) :
    ∃ project, resolve root machine = .ok project machine ∧
      project.root = canonicalRoot machine root ∧ project.manifest = manifest := by
  obtain ⟨hslug, hmain⟩ := hmain
  refine ⟨⟨canonicalRoot machine root, (Path.fileName? (canonicalRoot machine root)).getD "",
    Path.join (canonicalRoot machine root)
      ((Path.fileName? (canonicalRoot machine root)).getD "" ++ ".php"), manifest, mapping⟩, ?_,
    rfl, rfl⟩
  rw [resolve, get_bind, ← canonicalRoot]
  refine bind_eq_ok.mpr ⟨manifest, machine, hload, ?_⟩
  simp only [hbase, Bool.not_true, Bool.false_eq_true, if_false]
  refine bind_eq_ok.mpr ⟨mapping, machine, ofExcept_eq_ok.mpr ⟨hmapping, rfl⟩, ?_⟩
  rw [get_bind]
  simp [hslug, hmain]

/-- A manifest saved over the file that it was loaded from is loaded from there again. -/
theorem loadManifest_of_saveManifest {before edited saved : Manifest}
    (hload : loadManifest path machine = .ok before machine) (hpath : edited.path = path)
    (hsave : saveManifest edited machine = .ok () machine')
    (hparse : Manifest.parse path edited.render = .ok saved) :
    loadManifest path machine' = .ok saved machine' ∧
      Os.SameShape machine.tree machine'.tree ∧ machine'.cwd = machine.cwd := by
  rw [loadManifest_eq_ok] at hload ⊢
  obtain ⟨-, content, modified, text, hfile, -⟩ := hload
  rw [saveManifest, hpath, Files.replaceFile, Os.orFail_eq_ok] at hsave
  obtain ⟨hfile', hshape, hcwd, -⟩ := Os.replaceFile_of_entryAt hfile hsave
  exact ⟨⟨rfl, _, _, _, hfile', fromUTF8?_toUTF8 _, hparse⟩, hshape, hcwd⟩

theorem isFile_of_sameShape (hshape : Os.SameShape machine.tree machine'.tree)
    (hcwd : machine.cwd = machine'.cwd) (h : Os.isFile machine path = true) :
    Os.isFile machine' path = true := by
  rw [isFile_iff] at h ⊢
  obtain ⟨content, modified, hentry⟩ := h
  obtain ⟨place, hplace, hget⟩ := Os.entryAt_eq_ok.mp hentry
  obtain ⟨content', modified', hnode⟩ := hshape.file (FileTree.nodeAt_eq_file.mpr hget)
  exact ⟨content', modified', Os.entryAt_eq_ok.mpr
    ⟨place, Os.locate_congr hshape hcwd path ▸ hplace, FileTree.nodeAt_eq_file.mp hnode⟩⟩

theorem canonicalRoot_congr (hshape : Os.SameShape machine.tree machine'.tree)
    (hcwd : machine.cwd = machine'.cwd) (root : Path) :
    canonicalRoot machine root = canonicalRoot machine' root := by
  rw [canonicalRoot, canonicalRoot, Os.canonical, Os.canonical, Os.locate_congr hshape hcwd]

end PluginWorkshop.Project
