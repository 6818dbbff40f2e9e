import PluginWorkshop.Proofs.Machine.Canonical
import PluginWorkshop.Proofs.Machine.Entries
import PluginWorkshop.Proofs.Project.NewManifest
import PluginWorkshop.Proofs.Project.Resolving
import PluginWorkshop.Proofs.Project.Slugs

/-!
# Started plugins

A plugin that was started is a project (`resolve_of_start`): its manifest holds what was asked for
(`Starting.entryAt_manifest`), and the main file that WP-CLI made is still there
(`Starting.isFile_mainFile`). Both are found by the path that was given; a project is looked for at
the canonical path, below which the same files are found (`exists_canonicalRoot`).
-/

namespace PluginWorkshop

open PluginWorkshop.Path (IsName spelled)

/-- Installing dependencies leaves these files of a directory as they are. -/
def Installer.KeepsFiles (installer : Installer) (directory : Path) (names : List String) : Prop :=
  ∀ ⦃machine outcome machine'⦄, installer.install directory machine = .ok outcome machine' →
    ∀ name ∈ names,
      Os.entryAt machine' (Path.join directory name) = Os.entryAt machine (Path.join directory name)

theorem Installer.keepsFiles_skip (directory : Path) (names : List String) :
    Installer.skip.KeepsFiles directory names := by
  intro machine outcome machine' h
  obtain ⟨-, rfl⟩ := pure_eq_ok.mp h
  exact fun _ _ => rfl

theorem cwd_of_runProcess {machine machine' : Machine} {runner : Runner} {directory : Path}
    {command : List String} (h : runProcess runner directory command machine = .ok () machine') :
    machine'.cwd = machine.cwd := by
  rw [runProcess] at h
  dsimp only at h
  split at h
  · obtain ⟨-, rfl⟩ := EStateM.Result.ok.inj h
    rfl
  · cases h

theorem cwd_of_install {machine machine' : Machine} {installer : Installer} {directory : Path}
    {outcome : InstallOutcome} (h : installer.install directory machine = .ok outcome machine') :
    machine'.cwd = machine.cwd := by
  cases installer with
  | skip =>
    obtain ⟨-, rfl⟩ := pure_eq_ok.mp h
    rfl
  | command runner words =>
    obtain ⟨_, _, hrun, h⟩ := bind_eq_ok.mp h
    obtain ⟨-, rfl⟩ := pure_eq_ok.mp h
    exact cwd_of_runProcess hrun

namespace StartOptions

variable {options : StartOptions} {slug nameSpace : String}

theorem vendor_eq (options : StartOptions) :
    options.vendor = if slugify (options.pluginAuthor.getD "") = "" then "wp-plugin"
      else slugify (options.pluginAuthor.getD "") := by
  simp [vendor]

theorem isNamespace_of_resolvedNamespace (h : options.resolvedNamespace slug = .ok nameSpace) :
    isNamespace nameSpace = true := by
  rw [resolvedNamespace] at h
  split_ifs at h with hname
  obtain rfl := Except.ok.inj h
  exact hname

end StartOptions

namespace Project

variable {machine machine' : Machine} {parent : Path} {options : StartOptions} {wpBinary : String}
  {runner : Runner} {installer : Installer} {report : StartReport}

/-! ## The steps -/

/-- What happens when a plugin is started. -/
structure Starting (parent : Path) (options : StartOptions) (wpBinary : String) (runner : Runner)
    (installer : Installer) (machine machine' : Machine) (report : StartReport) where
  command : List String
  /-- The machine after the call of WP-CLI, -/
  called : Machine
  /-- after the directory of the sources was made, -/
  prepared : Machine
  /-- and after the manifest was written. -/
  written : Machine
  slug_eq : options.resolvedSlug = .ok report.slug
  nameSpace_eq : options.resolvedNamespace report.slug = .ok report.nameSpace
  directory_eq : report.directory = Path.join parent report.slug
  manifest_eq : report.manifest = Path.join report.directory manifestFile
  command_eq : options.scaffoldCommand wpBinary parent = .ok command
  call_eq : runProcess runner parent command machine = .ok () called
  prepare_eq : Os.makeDirectoryAll (Path.join report.directory "src") called = .ok () prepared
  write_eq : Os.replaceFile report.manifest (options.manifestText report.slug report.nameSpace)
    prepared = .ok () written
  install_eq : installer.install report.directory written = .ok report.install machine'

theorem exists_starting
    (h : start parent options wpBinary runner installer machine = .ok report machine') :
    Nonempty (Starting parent options wpBinary runner installer machine machine' report) := by
  rw [start] at h
  obtain ⟨slug, _, hslugged, h⟩ := bind_eq_ok.mp h
  obtain ⟨hslug, rfl⟩ := ofExcept_eq_ok.mp hslugged
  obtain ⟨nameSpace, _, hnamed, h⟩ := bind_eq_ok.mp h
  obtain ⟨hname, rfl⟩ := ofExcept_eq_ok.mp hnamed
  dsimp only at h
  rw [get_bind] at h
  split_ifs at h
  · exact absurd h throw_bind_ne_ok
  obtain ⟨command, _, hcommanded, h⟩ := bind_eq_ok.mp h
  obtain ⟨hcommand, rfl⟩ := ofExcept_eq_ok.mp hcommanded
  obtain ⟨_, called, hcall, h⟩ := bind_eq_ok.mp h
  obtain ⟨_, prepared, hprepare, h⟩ := bind_eq_ok.mp h
  obtain ⟨_, written, hwrite, h⟩ := bind_eq_ok.mp h
  obtain ⟨outcome, _, hinstall, h⟩ := bind_eq_ok.mp h
  obtain ⟨rfl, rfl⟩ := pure_eq_ok.mp h
  rw [Os.orFail_eq_ok] at hprepare
  rw [Files.replaceFile, Os.orFail_eq_ok] at hwrite
  exact ⟨⟨command, called, prepared, written, hslug, hname, rfl, rfl, hcommand, hcall, hprepare,
    hwrite, hinstall⟩⟩

theorem Starting.cwd_eq
    (starting : Starting parent options wpBinary runner installer machine machine' report) :
    machine'.cwd = machine.cwd := by
  obtain ⟨_, _, hprepared, -⟩ := Os.makeDirectoryAll_ok starting.prepare_eq
  obtain ⟨_, _, -, -, -, -, hwritten, -⟩ := Os.replaceFile_ok starting.write_eq
  calc machine'.cwd
      = starting.written.cwd := cwd_of_install starting.install_eq
    _ = starting.prepared.cwd := hwritten
    _ = starting.called.cwd := by rw [hprepared]; rfl
    _ = machine.cwd := cwd_of_runProcess starting.call_eq

/-- The files that make the directory of a started plugin a project. -/
def startedFiles (slug : String) : List String := [manifestFile, slug ++ ".php"]

theorem manifestFile_mem_startedFiles (slug : String) : manifestFile ∈ startedFiles slug :=
  List.mem_cons_self

theorem mainFile_mem_startedFiles (slug : String) : slug ++ ".php" ∈ startedFiles slug :=
  List.mem_cons_of_mem _ List.mem_cons_self

theorem isName_manifestFile : IsName manifestFile := ⟨by decide, by decide⟩

theorem append_extension_ne (slug : String) {name : String}
    (hname : name.toList.getLast? ≠ some 'p') : slug ++ ".php" ≠ name := by
  rintro rfl
  simp at hname

section Files

variable (starting : Starting parent options wpBinary runner installer machine machine' report)
  (hinstaller : installer.KeepsFiles report.directory (startedFiles report.slug))

include starting hinstaller

/-- The manifest holds the text that was written. -/
theorem Starting.entryAt_manifest : ∃ modified,
    Os.entryAt machine' report.manifest =
      .ok (.file (options.manifestText report.slug report.nameSpace).toUTF8 modified) := by
  have hkept := hinstaller starting.install_eq _ (manifestFile_mem_startedFiles _)
  rw [← starting.manifest_eq] at hkept
  exact ⟨_, hkept.trans (Os.entryAt_replaceFile starting.write_eq)⟩

/-- The main file is not touched once WP-CLI has run. -/
theorem Starting.isFile_mainFile
    (hmain : Os.isFile starting.called
      (Path.join report.directory (report.slug ++ ".php")) = true) :
    Os.isFile machine' (Path.join report.directory (report.slug ++ ".php")) = true := by
  obtain ⟨hslug, -⟩ := StartOptions.isName_of_resolvedSlug starting.slug_eq
  obtain ⟨content, modified, hfile⟩ := isFile_iff.mp hmain
  have hprepared := Os.entryAt_makeDirectoryAll starting.prepare_eq hfile
  have hplaces := Os.namedPlace_join_ne starting.prepared report.directory hslug.append_extension
    isName_manifestFile (append_extension_ne _ (by decide)) (by decide)
    (append_extension_ne _ (by decide))
  rw [← starting.manifest_eq] at hplaces
  have hwritten := Os.entryAt_replaceFile_of_ne starting.write_eq hplaces hprepared
  have hkept := hinstaller starting.install_eq _ (mainFile_mem_startedFiles _)
  exact isFile_iff.mpr ⟨content, modified, hkept.trans hwritten⟩

end Files

/-! ## Resolving -/

/-- The system takes the absolute paths of the files of a plugin, as it always does below an
absolute path. Below a relative one they may be too long, with the names that lead to the working
directory. -/
def HasAbsolutePaths (machine : Machine) (parent : Path) (slug : String) : Prop :=
  Path.isAbsolute parent = true ∨ (∀ name ∈ machine.cwd, Os.IsEntryName name) ∧
    ∀ file ∈ startedFiles slug, Os.checkPath
      (spelled (Os.namedPlace machine (Path.join (Path.join parent slug) file))) = .ok ()

theorem HasAbsolutePaths.hasCanonical {slug file : String}
    (h : HasAbsolutePaths machine parent slug) (hcwd : machine'.cwd = machine.cwd)
    (hfile : file ∈ startedFiles slug) :
    Os.HasCanonical machine' (Path.join (Path.join parent slug) file) := by
  rcases h with hparent | ⟨hnames, hcheck⟩
  · exact Os.hasCanonical_of_isAbsolute (Path.isAbsolute_join_of_isAbsolute
      (Path.isAbsolute_join_of_isAbsolute hparent slug) file)
  · refine Os.hasCanonical_of_checkPath (fun name hname => ?_) fun place hlocate => ?_
    · rw [Os.startOf, hcwd] at hname
      split_ifs at hname
      · cases hname
      · exact hnames name hname
    · rw [Os.locate_eq_namedPlace hlocate, Os.namedPlace_congr hcwd]
      exact hcheck file hfile

/-- The canonical root of a plugin bears the name of its directory, and the files of the plugin are
found below it. -/
theorem exists_canonicalRoot {slug : String} {manifest main : FileTree} (hslug : IsName slug)
    (hdots : slug ≠ "..")
    (hcanonical : ∀ file ∈ startedFiles slug,
      Os.HasCanonical machine (Path.join (Path.join parent slug) file))
    (hmanifest : Os.entryAt machine (Path.join (Path.join parent slug) manifestFile) = .ok manifest)
    (hmain : Os.entryAt machine (Path.join (Path.join parent slug) (slug ++ ".php")) = .ok main) :
    ∃ root, Os.canonical machine (Path.join parent slug) = .ok root ∧
      Path.fileName? root = some slug ∧
      (∀ base, Os.canonical machine parent = .ok base → root = Path.join base slug) ∧
      Os.entryAt machine (Path.join root manifestFile) = .ok manifest ∧
      Os.entryAt machine (Path.join root (slug ++ ".php")) = .ok main := by
  have hne := Path.join_ne_empty parent hslug
  have hcanonicalManifest := hcanonical _ (manifestFile_mem_startedFiles slug)
  have hcanonicalMain := hcanonical _ (mainFile_mem_startedFiles slug)
  rw [Path.join_join hslug isName_manifestFile] at hmanifest hcanonicalManifest
  rw [Path.join_join hslug hslug.append_extension] at hmain hcanonicalMain
  obtain ⟨place, hlocate, hnames, hmanifest'⟩ := Os.entryAt_join_spelled hne isName_manifestFile
    (by decide) hcanonicalManifest hmanifest
  obtain ⟨place', hlocate', -, hmain'⟩ := Os.entryAt_join_spelled hne hslug.append_extension
    (append_extension_ne _ (by decide)) hcanonicalMain hmain
  obtain rfl : place' = place := Except.ok.inj (hlocate'.symm.trans hlocate)
  have hplace := Os.locate_eq_namedPlace hlocate
  rw [Os.namedPlace_join_eq machine parent hslug hdots] at hplace
  refine ⟨spelled place', by rw [Os.canonical, hlocate]; rfl, ?_, ?_, hmanifest', hmain'⟩
  · rw [hplace] at hnames ⊢
    exact Path.fileName?_spelled hdots hnames
  · intro base hbase
    rw [Os.canonical] at hbase
    cases hparent : Os.locate machine parent with
    | error e => simp [hparent, Except.map] at hbase
    | ok before =>
      obtain rfl : spelled before = base := by simpa [hparent, Except.map, spelled] using hbase
      rw [← Os.locate_eq_namedPlace hparent] at hplace
      rw [hplace] at hnames ⊢
      rw [Path.join_spelled (fun name hname => hnames name (by simp [hname])) hslug]

theorem loadManifest_newManifest {slug nameSpace : String} {path : Path} {modified : Time}
    (h : Os.entryAt machine path =
      .ok (.file (options.manifestText slug nameSpace).toUTF8 modified)) :
    loadManifest path machine = .ok (options.newManifest slug nameSpace path) machine :=
  loadManifest_eq_ok.mpr ⟨rfl, _, modified, _, h, fromUTF8?_toUTF8 _,
    options.parse_manifestText slug nameSpace path⟩

/-- With the new manifest and a main file below its canonical root, a plugin is a project. -/
theorem exists_resolve_newManifest {directory root : Path} {slug nameSpace : String}
    {modified : Time} (hroot : canonicalRoot machine directory = root)
    (hname : Path.fileName? root = some slug) (hslug : slug ≠ "")
    (hnameSpace : isNamespace nameSpace = true)
    (hmanifest : Os.entryAt machine (Path.join root manifestFile) =
      .ok (.file (options.manifestText slug nameSpace).toUTF8 modified))
    (hmain : Os.isFile machine (Path.join root (slug ++ ".php")) = true) :
    ∃ project, resolve directory machine = .ok project machine ∧ project.root = root ∧
      project.slug = slug ∧
      project.mapping = ⟨nameSpace ++ "\\", nameSpace, Path.join root "src"⟩ := by
  have hload := loadManifest_newManifest hmanifest
  have hmapping := options.namespaceMapping_newManifest slug hnameSpace
    (Path.join root manifestFile) root
  subst hroot
  have hmainFile : HasMainFile machine (canonicalRoot machine directory) := by
    rw [HasMainFile, hname]
    exact ⟨hslug, hmain⟩
  obtain ⟨project, hresolve, hprojectRoot, hmanifest⟩ :=
    exists_resolve hload (StartOptions.hasDependency_newManifest _) hmapping hmainFile
  have hprojectSlug := fileName?_of_resolve hresolve
  rw [hprojectRoot, hname, Option.some.injEq] at hprojectSlug
  obtain ⟨-, -, -, -, hprojectMapping, -⟩ := resolve_eq_ok hresolve
  rw [hmanifest, hprojectRoot, hmapping, Except.ok.injEq] at hprojectMapping
  exact ⟨project, hresolve, hprojectRoot, hprojectSlug.symm, hprojectMapping.symm⟩

/-- A plugin that was started is a project with the slug and the namespace of the report, if WP-CLI
made its main file and the installer leaves its files alone. -/
theorem resolve_of_start (parent : Path) (options : StartOptions) (wpBinary : String)
    (runner : Runner) (installer : Installer) (machine machine' : Machine) (report : StartReport)
    (h : start parent options wpBinary runner installer machine = .ok report machine')
    (hmain : ∀ command, options.scaffoldCommand wpBinary parent = .ok command →
      Os.isFile (after (runProcess runner parent command) machine)
        (Path.join (Path.join parent report.slug) (report.slug ++ ".php")) = true)
    (hinstaller : installer.KeepsFiles report.directory (startedFiles report.slug))
    (hpaths : HasAbsolutePaths machine parent report.slug) :
    report.directory = Path.join parent report.slug ∧
      report.manifest = Path.join report.directory manifestFile ∧
      (∃ manifest, loadManifest report.manifest machine' = .ok manifest machine' ∧
        manifest.document.get? "name" = some (.string
          ((if slugify (options.pluginAuthor.getD "") = "" then "wp-plugin"
            else slugify (options.pluginAuthor.getD "")) ++ "/" ++ report.slug)) ∧
        manifest.document.get? "description" = some (.string
          ((options.pluginDescription <|> options.pluginName).getD ""))) ∧
      ∃ project, resolve report.directory machine' = .ok project machine' ∧
        project.slug = report.slug ∧ project.mapping.rootNamespace = report.nameSpace ∧
        Os.canonical machine' report.directory = .ok project.root ∧
        project.mapping.sourceDir = Path.join project.root "src" ∧
        ∀ base, Os.canonical machine' parent = .ok base →
          project.mapping.sourceDir = Path.join (Path.join base report.slug) "src" := by
  obtain ⟨starting⟩ := exists_starting h
  have hdirectory := starting.directory_eq
  obtain ⟨hslug, hdots⟩ := StartOptions.isName_of_resolvedSlug starting.slug_eq
  have hnameSpace := StartOptions.isNamespace_of_resolvedNamespace starting.nameSpace_eq
  -- Both files are there by the path that was given.
  obtain ⟨modified, hmanifest⟩ := starting.entryAt_manifest hinstaller
  have hcalled := hmain _ starting.command_eq
  rw [after_of_ok starting.call_eq, ← hdirectory] at hcalled
  obtain ⟨content, time, hfile⟩ := isFile_iff.mp (starting.isFile_mainFile hinstaller hcalled)
  refine ⟨hdirectory, starting.manifest_eq, ⟨_, loadManifest_newManifest hmanifest, ?_, rfl⟩, ?_⟩
  · rw [← StartOptions.vendor_eq]
    rfl
  -- They are there below the canonical root as well, where the project is looked for.
  rw [starting.manifest_eq, hdirectory] at hmanifest
  rw [hdirectory] at hfile ⊢
  obtain ⟨root, hroot, hname, hbase, hmanifest, hfile⟩ :=
    exists_canonicalRoot hslug hdots (fun _ => hpaths.hasCanonical starting.cwd_eq) hmanifest hfile
  have hcanonicalRoot : canonicalRoot machine' (Path.join parent report.slug) = root := by
    rw [canonicalRoot, hroot]
    rfl
  obtain ⟨project, hresolve, rfl, hprojectSlug, hmapping⟩ := exists_resolve_newManifest
    hcanonicalRoot hname hslug.ne_empty hnameSpace hmanifest (isFile_iff.mpr ⟨_, _, hfile⟩)
  refine ⟨project, hresolve, hprojectSlug, by rw [hmapping], hroot, by rw [hmapping],
    fun base hparent => ?_⟩
  rw [hmapping, hbase base hparent]

/-- Options for the plugin `my-plugin` whose description has to be escaped. -/
def quotedOptions : StartOptions :=
  ⟨none, none, some "My Plugin", some "\"\x7b\x7bslug\x7d\x7d\" \\ \x01 é", some "Acme Inc", none,
    none, false, none, false, false, false⟩

/-- What WP-CLI does in `/srv` for the plugin `my-plugin`. -/
def scaffolding : Runner := fun _ _ tree =>
  (.ok (), tree.put ["srv"] "my-plugin" (.directory [("my-plugin.php", .file .empty 0)]))

/-- The description is read as it was given. -/
theorem resolve_of_start_quoted :
    let machine := Machine.ofTree (.directory [("srv", .directory [])])
    ∃ report machine',
      start "/srv" quotedOptions "wp" scaffolding .skip machine = .ok report machine' ∧
      (∃ manifest, loadManifest "/srv/my-plugin/composer.json" machine' = .ok manifest machine' ∧
        manifest.document.get? "name" = some (.string "acme-inc/my-plugin") ∧
        manifest.document.get? "description" =
          some (.string "\"\x7b\x7bslug\x7d\x7d\" \\ \x01 é")) ∧
      ∃ project, resolve "/srv/my-plugin" machine' = .ok project machine' ∧
        project.slug = "my-plugin" ∧ project.mapping.rootNamespace = "MyPlugin" := by
  intro machine
  have houtcome : outcome (start "/srv" quotedOptions "wp" scaffolding .skip) machine =
      .ok ⟨"my-plugin", "MyPlugin", "/srv/my-plugin", "/srv/my-plugin/composer.json", .skipped⟩ := by
    decide
  obtain ⟨machine', h⟩ := outcome_eq_ok.mp houtcome
  have hmain : ∀ command, quotedOptions.scaffoldCommand "wp" "/srv" = .ok command →
      Os.isFile (after (runProcess scaffolding "/srv" command) machine)
        (Path.join (Path.join "/srv" "my-plugin") ("my-plugin" ++ ".php")) = true := by
    intro command _
    rfl
  obtain ⟨-, -, ⟨manifest, hload, hname, hdescription⟩, project, hresolve, hslug, hnameSpace, -⟩ :=
    resolve_of_start "/srv" quotedOptions "wp" scaffolding .skip machine machine' _ h hmain
      (Installer.keepsFiles_skip _ _) (Or.inl (by decide))
  refine ⟨_, machine', h, ⟨manifest, hload, hname.trans ?_, hdescription⟩, project, hresolve, hslug,
    hnameSpace⟩
  refine congrArg (fun name => some (Json.string name)) ?_
  decide

end Project

end PluginWorkshop
