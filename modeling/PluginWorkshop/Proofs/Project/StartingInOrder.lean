import PluginWorkshop.Proofs.Project.Adding
import PluginWorkshop.Proofs.Project.ScaffoldCommands
import PluginWorkshop.Proofs.Project.Starting

/-!
# The order in which a plugin is started

Either a start is refused and nothing is done, or WP-CLI is called, then the plugin is laid out, and
the installer comes last (`start_course`). Each of these can fail, and what comes behind it is not
done then; where the installer is not called, the result is the same for every installer. The calls
that are made can be read off the course of a start (`Course.exists_calls`), and a manifest that must
not be overwritten keeps all of them from being made (`Course.after_of_fileExists`).
-/

namespace PluginWorkshop.Project

variable {machine : Machine} {parent : Path} {options : StartOptions} {wpBinary : String}
  {runner : Runner} {installer : Installer} {slug nameSpace : String} {command : List String}

/-! ## The steps behind WP-CLI -/

/-- The source directory and the manifest of a new plugin. -/
def layOut (parent : Path) (options : StartOptions) (slug nameSpace : String) : Action Unit := do
  let sources := Path.join (Path.join parent slug) "src"
  (Os.makeDirectoryAll sources).orFail (.writeFailed sources)
  Files.replaceFile (Path.join (Path.join parent slug) manifestFile)
    (options.manifestText slug nameSpace)

/-- The last step of a start: the dependencies are installed. -/
def complete (parent : Path) (slug nameSpace : String) (installer : Installer) :
    Action StartReport := do
  let directory := Path.join parent slug
  let install ← installer.install directory
  return ⟨slug, nameSpace, directory, Path.join directory manifestFile, install⟩

theorem after_complete (parent : Path) (slug nameSpace : String) (installer : Installer)
    (machine : Machine) : after (complete parent slug nameSpace installer) machine =
      after (installer.install (Path.join parent slug)) machine :=
  after_bind_pure _ _ _

/-- The manifest holds what was asked for, and the source directory is there. -/
structure LaidOut (parent : Path) (options : StartOptions) (slug nameSpace : String)
    (machine : Machine) : Prop where
  manifest : ∃ modified, Os.entryAt machine (Path.join (Path.join parent slug) manifestFile) =
    .ok (.file (options.manifestText slug nameSpace).toUTF8 modified)
  sources : Os.isDirectory machine (Path.join (Path.join parent slug) "src") = true

theorem laidOut_of_layOut {written : Machine}
    (h : layOut parent options slug nameSpace machine = .ok () written) :
    LaidOut parent options slug nameSpace written := by
  obtain ⟨_, prepared, hprepare, hwrite⟩ := bind_eq_ok.mp h
  rw [Os.orFail_eq_ok] at hprepare
  rw [Files.replaceFile, Os.orFail_eq_ok] at hwrite
  have hsources := Os.isDirectory_of_makeDirectoryAll
    (Path.join_ne_empty _ ⟨by decide, by decide⟩) hprepare
  exact ⟨⟨_, Os.entryAt_replaceFile hwrite⟩, Os.isDirectory_replaceFile hwrite hsources⟩

/-- Nothing is called while a plugin is laid out. -/
theorem calls_layOut (parent : Path) (options : StartOptions) (slug nameSpace : String)
    (machine : Machine) :
    (after (layOut parent options slug nameSpace) machine).calls = machine.calls := by
  have hprepared := Os.calls_makeDirectoryAll machine (Path.join (Path.join parent slug) "src")
  rw [← Os.after_orFail _ (.writeFailed (Path.join (Path.join parent slug) "src"))] at hprepared
  rw [layOut]
  cases hprepare : (Os.makeDirectoryAll (Path.join (Path.join parent slug) "src")).orFail
      (.writeFailed (Path.join (Path.join parent slug) "src")) machine with
  | error e failed => rwa [after_bind_of_error hprepare, ← after_of_error hprepare]
  | ok _ prepared =>
    rw [after_bind_of_ok hprepare, Files.replaceFile, Os.after_orFail, Os.calls_replaceFile,
      ← after_of_ok hprepare, hprepared]

/-! ## The course of a start -/

/-- Once the names and the command are known, only a manifest can keep WP-CLI from being called. -/
theorem start_eq (hslug : options.resolvedSlug = .ok slug)
    (hname : options.resolvedNamespace slug = .ok nameSpace)
    (hcommand : options.scaffoldCommand wpBinary parent = .ok command) (installer : Installer) :
    start parent options wpBinary runner installer machine =
      if Os.fileExists machine (Path.join (Path.join parent slug) manifestFile) && !options.force then
        .error (.targetExists (Path.join (Path.join parent slug) manifestFile)) machine
      else
        (do
          runProcess runner parent command
          layOut parent options slug nameSpace
          complete parent slug nameSpace installer) machine := by
  rw [start, hslug]
  refine (bind_of_ok (ofExcept_eq_ok.mpr ⟨rfl, rfl⟩)).trans ?_
  rw [hname]
  refine (bind_of_ok (ofExcept_eq_ok.mpr ⟨rfl, rfl⟩)).trans ?_
  refine (get_bind _ _).trans ?_
  simp only [hcommand, layOut, complete, bind_assoc]
  split_ifs <;> rfl

/-- WP-CLI may be called for a plugin: its slug and its namespace are valid, and there is no manifest
unless it may be overwritten. -/
structure MayScaffold (parent : Path) (options : StartOptions) (wpBinary : String)
    (machine : Machine) (slug nameSpace : String) (command : List String) : Prop where
  slug_eq : options.resolvedSlug = .ok slug
  nameSpace_eq : options.resolvedNamespace slug = .ok nameSpace
  command_eq : options.scaffoldCommand wpBinary parent = .ok command
  force_of_fileExists :
    Os.fileExists machine (Path.join (Path.join parent slug) manifestFile) = true →
      options.force = true

/-- The ways in which a start can go. -/
inductive Course (parent : Path) (options : StartOptions) (wpBinary : String) (runner : Runner)
    (machine : Machine) : Prop where
  /-- WP-CLI may not be called, and nothing is done. -/
  | refused {e : PluginError}
      (hnot : ∀ slug nameSpace command,
        ¬ MayScaffold parent options wpBinary machine slug nameSpace command)
      (h : ∀ installer, start parent options wpBinary runner installer machine = .error e machine)
  /-- WP-CLI fails, and nothing is done but what it did. -/
  | unscaffolded {slug nameSpace : String} {command : List String} {e : PluginError}
      {called : Machine}
      (may : MayScaffold parent options wpBinary machine slug nameSpace command)
      (hrun : runProcess runner parent command machine = .error e called)
      (h : ∀ installer, start parent options wpBinary runner installer machine = .error e called)
  /-- The plugin cannot be laid out. -/
  | unwritten {slug nameSpace : String} {command : List String} {e : PluginError}
      {called failed : Machine}
      (may : MayScaffold parent options wpBinary machine slug nameSpace command)
      (hrun : runProcess runner parent command machine = .ok () called)
      (hlay : layOut parent options slug nameSpace called = .error e failed)
      (h : ∀ installer, start parent options wpBinary runner installer machine = .error e failed)
  /-- The plugin is laid out, and what is left to do is up to the installer. -/
  | written {slug nameSpace : String} {command : List String} {called written : Machine}
      (may : MayScaffold parent options wpBinary machine slug nameSpace command)
      (hrun : runProcess runner parent command machine = .ok () called)
      (hlay : layOut parent options slug nameSpace called = .ok () written)
      (laid : LaidOut parent options slug nameSpace written)
      (h : ∀ installer, start parent options wpBinary runner installer machine =
        complete parent slug nameSpace installer written)

/-- Where WP-CLI may be called, the steps come one after the other. -/
theorem MayScaffold.course
    (may : MayScaffold parent options wpBinary machine slug nameSpace command) (runner : Runner) :
    Course parent options wpBinary runner machine := by
  have hsteps : ∀ installer, start parent options wpBinary runner installer machine =
      (do
        runProcess runner parent command
        layOut parent options slug nameSpace
        complete parent slug nameSpace installer) machine := by
    intro installer
    rw [start_eq may.slug_eq may.nameSpace_eq may.command_eq, if_neg ?_]
    rw [Bool.not_eq_true, Bool.and_eq_false_imp, Bool.not_eq_false']
    exact may.force_of_fileExists
  cases hrun : runProcess runner parent command machine with
  | error e called =>
    exact .unscaffolded may hrun fun installer =>
      (hsteps installer).trans (bind_eq_error.mpr (Or.inl hrun))
  | ok _ called =>
    cases hlay : layOut parent options slug nameSpace called with
    | error e failed =>
      exact .unwritten may hrun hlay fun installer =>
        (hsteps installer).trans ((bind_of_ok hrun).trans (bind_eq_error.mpr (Or.inl hlay)))
    | ok _ written =>
      exact .written may hrun hlay (laidOut_of_layOut hlay) fun installer =>
        (hsteps installer).trans ((bind_of_ok hrun).trans (bind_of_ok hlay))

/-- Where WP-CLI may not be called, nothing is done. -/
theorem exists_refused
    (h : ∀ slug nameSpace command,
      ¬ MayScaffold parent options wpBinary machine slug nameSpace command) :
    ∃ e, ∀ runner installer, start parent options wpBinary runner installer machine =
      .error e machine := by
  cases hslug : options.resolvedSlug with
  | error e =>
    refine ⟨e, fun _ _ => ?_⟩
    rw [start, hslug]
    rfl
  | ok slug =>
    have hcommand := StartOptions.scaffoldCommand_eq hslug wpBinary parent
    cases hname : options.resolvedNamespace slug with
    | error e =>
      refine ⟨e, fun _ _ => ?_⟩
      rw [start, hslug]
      refine (bind_of_ok (ofExcept_eq_ok.mpr ⟨rfl, rfl⟩)).trans ?_
      rw [hname]
      rfl
    | ok nameSpace =>
      have htaken := mt (fun hforce => ⟨hslug, hname, hcommand, hforce⟩) (h slug nameSpace _)
      rw [Classical.not_imp, Bool.not_eq_true] at htaken
      obtain ⟨hexists, hforce⟩ := htaken
      refine ⟨_, fun _ _ => (start_eq hslug hname hcommand _).trans (if_pos ?_)⟩
      rw [hexists, hforce]
      rfl

theorem start_course (parent : Path) (options : StartOptions) (wpBinary : String) (runner : Runner)
    (machine : Machine) : Course parent options wpBinary runner machine := by
  by_cases h : ∃ slug nameSpace command,
      MayScaffold parent options wpBinary machine slug nameSpace command
  · obtain ⟨slug, nameSpace, command, may⟩ := h
    exact may.course runner
  · have hnot : ∀ slug nameSpace command,
        ¬ MayScaffold parent options wpBinary machine slug nameSpace command :=
      fun slug nameSpace command may => h ⟨slug, nameSpace, command, may⟩
    obtain ⟨e, hrefused⟩ := exists_refused hnot
    exact .refused hnot (hrefused runner)

/-! ## What is called, and what stays -/

/-- The calls of a start: none, or one of WP-CLI and then at most one of the installer, which finds
the plugin laid out. -/
theorem Course.exists_calls (course : Course parent options wpBinary runner machine)
    (installer : Installer) : ∃ scaffolds installs : List Call,
      (after (start parent options wpBinary runner installer) machine).calls =
        machine.calls ++ scaffolds ++ installs ∧
      (scaffolds = [] ∧ installs = [] ∨ ∃ slug nameSpace command,
        MayScaffold parent options wpBinary machine slug nameSpace command ∧
        scaffolds = [⟨parent, command, machine.tree⟩] ∧
        (installs = [] ∨ ∃ written, LaidOut parent options slug nameSpace written ∧
          installs = installer.calls (Path.join parent slug) written.tree)) := by
  have hcalled : ∀ {command : List String} {called : Machine},
      after (runProcess runner parent command) machine = called →
      called.calls = machine.calls ++ [⟨parent, command, machine.tree⟩] := by
    rintro command called rfl
    exact calls_runProcess runner parent command machine
  have hlaid : ∀ {slug nameSpace : String} {called laid : Machine},
      after (layOut parent options slug nameSpace) called = laid → laid.calls = called.calls := by
    rintro slug nameSpace called laid rfl
    exact calls_layOut parent options slug nameSpace called
  cases course with
  | refused _ h =>
    refine ⟨[], [], ?_, Or.inl ⟨rfl, rfl⟩⟩
    rw [after_of_error (h installer), List.append_nil, List.append_nil]
  | unscaffolded may hrun h =>
    refine ⟨_, [], ?_, Or.inr ⟨_, _, _, may, rfl, Or.inl rfl⟩⟩
    rw [after_of_error (h installer), hcalled (after_of_error hrun), List.append_nil]
  | unwritten may hrun hlay h =>
    refine ⟨_, [], ?_, Or.inr ⟨_, _, _, may, rfl, Or.inl rfl⟩⟩
    rw [after_of_error (h installer), hlaid (after_of_error hlay), hcalled (after_of_ok hrun),
      List.append_nil]
  | @written slug nameSpace command called written may hrun hlay laid h =>
    refine ⟨_, _, ?_, Or.inr ⟨_, _, _, may, rfl, Or.inr ⟨written, laid, rfl⟩⟩⟩
    have hinstalled : after (start parent options wpBinary runner installer) machine =
        after (installer.install (Path.join parent slug)) written := by
      rw [after, h installer]
      exact after_complete parent slug nameSpace installer written
    rw [hinstalled, Installer.after_install, hlaid (after_of_ok hlay), hcalled (after_of_ok hrun)]

/-- Without being forced, a start leaves everything alone where there is a manifest. -/
theorem Course.after_of_fileExists (course : Course parent options wpBinary runner machine)
    (hslug : options.resolvedSlug = .ok slug) (hforce : options.force = false)
    (hexists : Os.fileExists machine (Path.join (Path.join parent slug) manifestFile) = true)
    (installer : Installer) :
    after (start parent options wpBinary runner installer) machine = machine := by
  have hnot : ∀ {slug' nameSpace command},
      ¬ MayScaffold parent options wpBinary machine slug' nameSpace command := by
    intro slug' nameSpace command may
    obtain rfl : slug = slug' := Except.ok.inj (hslug.symm.trans may.slug_eq)
    exact absurd (may.force_of_fileExists hexists) (by simp [hforce])
  cases course with
  | refused _ h => exact after_of_error (h installer)
  | unscaffolded may => exact absurd may hnot
  | unwritten may => exact absurd may hnot
  | written may => exact absurd may hnot

/-- A start goes one of its ways. WP-CLI is called at most once, with its command in the parent, and
only for a valid slug and namespace where the manifest may be written; a start that fails up to there
has done nothing itself. The installer is called at most once, behind WP-CLI, and finds the manifest
and the source directory. What the path of the manifest led to stays as it was, unless it may be
overwritten. -/
theorem start_in_order (parent : Path) (options : StartOptions) (wpBinary : String)
    (runner : Runner) (machine : Machine) :
    Course parent options wpBinary runner machine ∧
    (∀ installer, ∃ scaffolds installs : List Call,
      (after (start parent options wpBinary runner installer) machine).calls =
        machine.calls ++ scaffolds ++ installs ∧
      (scaffolds = [] ∧ installs = [] ∨ ∃ slug nameSpace command,
        MayScaffold parent options wpBinary machine slug nameSpace command ∧
        scaffolds = [⟨parent, command, machine.tree⟩] ∧
        (installs = [] ∨ ∃ written, LaidOut parent options slug nameSpace written ∧
          installs = installer.calls (Path.join parent slug) written.tree))) ∧
    ∀ installer slug entry, options.resolvedSlug = .ok slug → options.force = false →
      Os.entryAt machine (Path.join (Path.join parent slug) manifestFile) = .ok entry →
      Os.entryAt (after (start parent options wpBinary runner installer) machine)
        (Path.join (Path.join parent slug) manifestFile) = .ok entry := by
  have course := start_course parent options wpBinary runner machine
  refine ⟨course, course.exists_calls, fun installer slug entry hslug hforce hentry => ?_⟩
  have hexists : Os.fileExists machine (Path.join (Path.join parent slug) manifestFile) = true := by
    rw [Os.fileExists, hentry]
    rfl
  rw [course.after_of_fileExists hslug hforce hexists, hentry]

/-- With an installer that fails, the calls are those of WP-CLI and the installer; a manifest that is
there keeps both from being called. -/
theorem start_in_order_failing :
    let free := Machine.ofTree (.directory [("srv", .directory [])])
    let taken := Machine.ofTree (.directory [("srv", .directory [("my-plugin",
      .directory [("composer.json", .file "{}".toUTF8 0)])])])
    let installer := Installer.command
      (fun _ _ tree => (.error (.processFailed "composer update" "exit status 1"), tree))
      ["composer", "update"]
    (∃ command written, quotedOptions.scaffoldCommand "wp" "/srv" = .ok command ∧
      LaidOut "/srv" quotedOptions "my-plugin" "MyPlugin" written ∧
      (after (start "/srv" quotedOptions "wp" scaffolding installer) free).calls =
        [⟨"/srv", command, free.tree⟩,
          ⟨"/srv/my-plugin", ["composer", "update"], written.tree⟩]) ∧
      Os.entryAt (after (start "/srv" quotedOptions "wp" scaffolding installer) taken)
        "/srv/my-plugin/composer.json" = .ok (.file "{}".toUTF8 0) := by
  intro free taken installer
  obtain ⟨-, hcalls, -⟩ := start_in_order "/srv" quotedOptions "wp" scaffolding free
  obtain ⟨-, -, hkept⟩ := start_in_order "/srv" quotedOptions "wp" scaffolding taken
  have hslug : quotedOptions.resolvedSlug = .ok "my-plugin" := by decide
  have hname : quotedOptions.resolvedNamespace "my-plugin" = .ok "MyPlugin" := by decide
  refine ⟨?_, hkept installer "my-plugin" _ hslug rfl (by rfl)⟩
  have hlength : (after (start "/srv" quotedOptions "wp" scaffolding installer) free).calls.length =
      2 := by
    decide
  obtain ⟨scaffolds, installs, hcalls, hways⟩ := hcalls installer
  rw [hcalls] at hlength ⊢
  rcases hways with ⟨rfl, rfl⟩ | ⟨slug, nameSpace, command, may, rfl, rfl | ⟨written, laid, rfl⟩⟩
  · exact absurd hlength (by decide)
  · exact absurd hlength (by simp [free, Machine.ofTree])
  · obtain rfl : "my-plugin" = slug := Except.ok.inj (hslug.symm.trans may.slug_eq)
    obtain rfl : "MyPlugin" = nameSpace := Except.ok.inj (hname.symm.trans may.nameSpace_eq)
    exact ⟨command, written, may.command_eq, laid, rfl⟩

end PluginWorkshop.Project
