import PluginWorkshop.Proofs.Machine.NewFiles
import PluginWorkshop.Proofs.Manifest.Repeating
import PluginWorkshop.Proofs.Project.SupportFile
import PluginWorkshop.Proofs.Project.Toggling

/-!
# Adding an integration, all or nothing

Whichever write fails, an integration that is not added leaves the files as they were; one that is
added leaves the planned files and all else as it was (`Attaching`, `Requiring`). The package is
added in three steps of which only the last one writes, and then the installer is called
(`add_all_or_nothing`).
-/

namespace PluginWorkshop

open Os FileTree

/-! ## Calls of the installer -/

/-- The calls that an installer makes in a directory. -/
def Installer.calls (installer : Installer) (directory : Path) (found : FileTree) : List Call :=
  match installer with
  | skip => []
  | command _ words => [⟨directory, words, found⟩]

/-- That a command was run is recorded, whether or not it fails. -/
theorem calls_runProcess (runner : Runner) (directory : Path) (command : List String)
    (machine : Machine) : (after (runProcess runner directory command) machine).calls =
      machine.calls ++ [⟨directory, command, machine.tree⟩] := by
  rw [after, runProcess]
  dsimp only
  cases runner directory command machine.tree with
  | mk result tree => cases result <;> rfl

theorem Installer.after_install (installer : Installer) (directory : Path) (machine : Machine) :
    (after (installer.install directory) machine).calls =
      machine.calls ++ installer.calls directory machine.tree := by
  cases installer with
  | skip => exact (List.append_nil _).symm
  | command runner words =>
    rw [Installer.install, Installer.calls, after_bind_pure, calls_runProcess]

namespace Project

variable {root : Path} {machine machine' : Machine} {project : Project} {installer : Installer}

/-! ## The variable -/

/-- The variable for the plugin object added to the project at a root: what was planned on the text
of the main file, and the files before and after. -/
structure Attaching (root : Path) (machine machine' : Machine) where
  project : Project
  text : String
  outcome : Php.PatchOutcome
  mainClass : String
  resolve_eq : resolve root machine = .ok project machine
  text_eq : Files.readText project.mainFile machine = .ok text machine
  plan_eq : Php.plan project.mainFile text
    (.bindInstance (bindingVariable project.slug)) = .ok outcome
  mainInstance_eq : Php.mainInstance project.mainFile text = .ok mainClass
  free : machine.tree.nodeAt (namedPlace machine project.supportFile) = none
  nodeAt_eq : ∀ q, machine'.tree.nodeAt q =
    if q = namedPlace machine project.supportFile then
      some (.file (project.helperText mainClass (bindingVariable project.slug)).toUTF8 machine.now)
    else if q = namedPlace machine project.mainFile then
      some (.file outcome.content.toUTF8 machine.now)
    else machine.tree.nodeAt q

/-- The main file and a new file beside it. -/
theorem nodeAt_of_withNewFile {content old new : String}
    (hresolve : resolve root machine = .ok project machine)
    (hold : Files.readText project.mainFile machine = .ok old machine)
    (h : Files.withNewFile project.supportFile content
      (Files.replaceFile project.mainFile new) machine = .ok () machine') :
    machine.tree.nodeAt (namedPlace machine project.supportFile) = none ∧
      ∀ q, machine'.tree.nodeAt q =
        if q = namedPlace machine project.supportFile then some (.file content.toUTF8 machine.now)
        else if q = namedPlace machine project.mainFile then some (.file new.toUTF8 machine.now)
        else machine.tree.nodeAt q := by
  obtain ⟨-, bytes, modified, hfile, -⟩ := readText_eq_ok.mp hold
  obtain ⟨place, hlocate, hget⟩ := entryAt_eq_ok.mp hfile
  have hnode := nodeAt_eq_file.mpr hget
  obtain ⟨faults, opening, hreplace⟩ := Files.withNewFile_ok h
  -- No directory has to be made for the new file.
  have hmade : opening.made = [] := by
    have hmissing := opening.missing
    rw [missingParents_supportFile hresolve hlocate, List.sublist_nil, List.map_eq_nil_iff] at hmissing
    exact hmissing
  have hsupport : opening.place = namedPlace machine project.supportFile := by
    have hnamed := target_eq_namedPlace opening.target_eq
    exact hnamed
  have htree : ∀ q, (opening.tree content.toUTF8 machine.now).nodeAt q =
      if q = opening.place then some (.file content.toUTF8 machine.now)
      else machine.tree.nodeAt q := by
    intro q
    rw [opening.nodeAt_tree, hmade]
    simp
  rw [Files.replaceFile, orFail_eq_ok] at hreplace
  have hfile' := entryAt_eq_ok.mpr ⟨place, opening.locate_tree_of_eq_ok content.toUTF8 machine.now
    hlocate faults, nodeAt_eq_file.mp (opening.nodeAt_tree_of_eq_some _ _ hnode)⟩
  obtain ⟨-, -, -, place', hplace', hnodes⟩ := replaceFile_of_entryAt hfile' hreplace
  obtain rfl : place = place' := Except.ok.inj
    ((opening.locate_tree_of_eq_ok content.toUTF8 machine.now hlocate faults).symm.trans hplace')
  have hmain := locate_eq_namedPlace hlocate
  have hfree := opening.nodeAt_place
  refine ⟨hsupport ▸ hfree, fun q => ?_⟩
  rw [hnodes, Machine.withTree_tree, htree, ← hsupport, ← hmain]
  by_cases hq : q = opening.place
  · have hother : q ≠ place := by
      rintro rfl
      rw [← hq, hnode] at hfree
      cases hfree
    rw [if_neg hother, if_pos hq, if_pos hq]
  · rw [if_neg hq, if_neg hq]
    rfl

theorem add_ideHelper_cases (root : Path) (installer : Installer) (machine : Machine) :
    match add root .ideHelper installer machine with
    | .error _ machine' => machine'.tree = machine.tree
    | .ok _ machine' => Nonempty (Attaching root machine machine') := by
  split
  · next e machine' h =>
    rcases bind_eq_error.mp h with h | ⟨project, _, hresolve, h⟩
    · rw [(onlyLooks_resolve root).of_error h]
    obtain ⟨rfl, -⟩ := resolve_eq_ok hresolve
    change project.addBinding .ideHelper "ide-helper.php" machine = _ at h
    rw [addBinding] at h
    rcases bind_eq_error.mp h with h | ⟨text, _, htext, h⟩
    · rw [(onlyLooks_readText _).of_error h]
    obtain ⟨rfl, bytes, modified, hfile, -⟩ := readText_eq_ok.mp htext
    obtain ⟨place, hlocate, -⟩ := entryAt_eq_ok.mp hfile
    split at h
    · cases h
      rfl
    rcases bind_eq_error.mp h with h | ⟨outcome, _, hplanned, h⟩
    · rw [(onlyLooks_ofExcept _).of_error h]
    obtain ⟨-, rfl⟩ := ofExcept_eq_ok.mp hplanned
    rcases bind_eq_error.mp h with h | ⟨mainClass, _, hclass, h⟩
    · rw [(onlyLooks_ofExcept _).of_error h]
    obtain ⟨-, rfl⟩ := ofExcept_eq_ok.mp hclass
    have hway : Files.Retraceable machine (Files.missingParents machine project.supportFile) := by
      rw [missingParents_supportFile hresolve hlocate]
      trivial
    rcases bind_eq_error.mp h with h | ⟨_, _, -, h⟩
    · obtain ⟨faults, rfl⟩ := Files.withNewFile_error hway Files.replaceFile_error h
      rfl
    · cases h
  · next report machine' h =>
    obtain ⟨project, text, outcome, mainClass, hresolve, htext, -, hplan, hmain, hfiles, -⟩ :=
      add_ideHelper_eq_ok h
    obtain ⟨hfree, hnodes⟩ := nodeAt_of_withNewFile hresolve htext hfiles
    exact ⟨⟨project, text, outcome, mainClass, hresolve, htext, hplan, hmain, hfree, hnodes⟩⟩

/-! ## The package -/

/-- The package required in the manifest of the project at a root, and the manifest saved. -/
structure Requiring (root : Path) (machine : Machine) where
  project : Project
  inserted : Manifest
  wasAdded : Bool
  edited : Manifest
  /-- The machine once the manifest is saved. -/
  saved : Machine
  resolve_eq : resolve root machine = .ok project machine
  fresh : project.manifest.hasDependency "cmb2/cmb2" = false
  insert_eq : project.manifest.insertDependency "cmb2/cmb2" "dev-master" = .ok inserted
  add_eq : inserted.addAutoloadFile "vendor/cmb2/cmb2/init.php" = .ok (wasAdded, edited)
  save_eq : saveManifest edited machine = .ok () saved
  calls_eq : saved.calls = machine.calls
  nodeAt_eq : ∀ q, saved.tree.nodeAt q =
    if q = namedPlace machine (manifestPath machine root) then
      some (.file edited.render.toUTF8 machine.now)
    else machine.tree.nodeAt q

/-- Saving a manifest where one was found changes its file and nothing else. -/
theorem nodeAt_of_saveManifest {path : Path} {before edited : Manifest} {saved : Machine}
    (hload : loadManifest path machine = .ok before machine) (hpath : edited.path = path)
    (hsave : saveManifest edited machine = .ok () saved) :
    saved.calls = machine.calls ∧ ∀ q, saved.tree.nodeAt q =
      if q = namedPlace machine path then some (.file edited.render.toUTF8 machine.now)
      else machine.tree.nodeAt q := by
  obtain ⟨-, content, modified, text, hfile, -⟩ := loadManifest_eq_ok.mp hload
  rw [saveManifest, hpath, Files.replaceFile, orFail_eq_ok] at hsave
  obtain ⟨-, -, -, place, hlocate, hnodes⟩ := replaceFile_of_entryAt hfile hsave
  obtain rfl := locate_eq_namedPlace hlocate
  refine ⟨?_, hnodes⟩
  rw [replaceFile_eq] at hsave
  obtain ⟨directory, name, faults, -, -, rfl⟩ := putText_ok hsave
  rfl

theorem exists_requiring {inserted edited : Manifest} {wasAdded : Bool} {saved : Machine}
    (hresolve : resolve root machine = .ok project machine)
    (hfresh : project.manifest.hasDependency "cmb2/cmb2" = false)
    (hinsert : project.manifest.insertDependency "cmb2/cmb2" "dev-master" = .ok inserted)
    (hadd : inserted.addAutoloadFile "vendor/cmb2/cmb2/init.php" = .ok (wasAdded, edited))
    (hsave : saveManifest edited machine = .ok () saved) :
    ∃ r : Requiring root machine, r.project = project ∧ r.saved = saved := by
  obtain ⟨-, -, hload, -⟩ := resolve_eq_ok hresolve
  obtain ⟨-, -, -, text, -, -, hparse⟩ := loadManifest_eq_ok.mp hload
  have hpath : edited.path = manifestPath machine root := by
    rw [Manifest.addAutoloadFile_path hadd, Manifest.insertDependency_path hinsert,
      Manifest.parse_path hparse]
  obtain ⟨hcalls, hnodes⟩ := nodeAt_of_saveManifest hload hpath hsave
  exact ⟨⟨project, inserted, wasAdded, edited, saved, hresolve, hfresh, hinsert, hadd, hsave, hcalls,
    hnodes⟩, rfl, rfl⟩

/-- Once the manifest is saved, adding the package is calling the installer. -/
theorem Requiring.add_eq_install (r : Requiring root machine) (installer : Installer) :
    add root .cmb2 installer machine = (do
      let outcome ← installer.install r.project.root
      return ⟨.cmb2, .added, [r.edited.path], [], some outcome⟩ : Action ToggleReport) r.saved := by
  have hadd : add root .cmb2 installer machine = r.project.addDependency .cmb2 "cmb2/cmb2"
      "dev-master" "vendor/cmb2/cmb2/init.php" installer machine :=
    bind_of_ok r.resolve_eq
  rw [hadd, addDependency, r.fresh]
  refine (bind_of_ok (ofExcept_eq_ok.mpr ⟨r.insert_eq, rfl⟩)).trans ?_
  refine (bind_of_ok (ofExcept_eq_ok.mpr ⟨r.add_eq, rfl⟩)).trans ?_
  exact bind_of_ok r.save_eq

theorem add_cmb2_cases (root : Path) (installer : Installer) (machine : Machine) :
    match add root .cmb2 installer machine with
    | .error e machine' => machine'.tree = machine.tree ∧ machine'.calls = machine.calls ∨
        ∃ r : Requiring root machine, installer.install r.project.root r.saved = .error e machine'
    | .ok _ machine' => ∃ (r : Requiring root machine) (outcome : InstallOutcome),
        installer.install r.project.root r.saved = .ok outcome machine' := by
  split
  · next e machine' h =>
    rcases bind_eq_error.mp h with h | ⟨project, _, hresolve, h⟩
    · rw [(onlyLooks_resolve root).of_error h]
      exact Or.inl ⟨rfl, rfl⟩
    obtain ⟨rfl, -⟩ := resolve_eq_ok hresolve
    change project.addDependency .cmb2 "cmb2/cmb2" "dev-master" "vendor/cmb2/cmb2/init.php" installer
      machine = _ at h
    rw [addDependency] at h
    split at h
    · cases h
      exact Or.inl ⟨rfl, rfl⟩
    next hfresh =>
    rcases bind_eq_error.mp h with h | ⟨inserted, _, hinserted, h⟩
    · rw [(onlyLooks_ofExcept _).of_error h]
      exact Or.inl ⟨rfl, rfl⟩
    obtain ⟨hinsert, rfl⟩ := ofExcept_eq_ok.mp hinserted
    rcases bind_eq_error.mp h with h | ⟨⟨wasAdded, edited⟩, _, hadded, h⟩
    · rw [(onlyLooks_ofExcept _).of_error h]
      exact Or.inl ⟨rfl, rfl⟩
    obtain ⟨hadd, rfl⟩ := ofExcept_eq_ok.mp hadded
    rcases bind_eq_error.mp h with h | ⟨_, saved, hsave, h⟩
    · obtain ⟨faults, rfl⟩ := Files.replaceFile_error h
      exact Or.inl ⟨rfl, rfl⟩
    obtain ⟨r, rfl, rfl⟩ := exists_requiring hresolve (by simpa using hfresh) hinsert hadd hsave
    rcases bind_eq_error.mp h with h | ⟨_, _, -, h⟩
    · exact Or.inr ⟨r, h⟩
    · cases h
  · next report machine' h =>
    obtain ⟨project, hresolve, h⟩ := add_cmb2_eq_ok h
    obtain ⟨hfresh, inserted, wasAdded, edited, saved, outcome, hinsert, hadd, hsave, hinstall⟩ :=
      addDependency_eq_ok h
    obtain ⟨r, rfl, rfl⟩ := exists_requiring hresolve hfresh hinsert hadd hsave
    exact ⟨r, outcome, hinstall⟩

/-- A manifest that takes a package: no key of `require` names the package already, and the files
that are loaded with the plugin are in a list, if there are any. -/
def TakesPackage (package : String) (manifest : Manifest) : Prop :=
  (∀ required : Members, Members.get? "require" manifest.document = some (.object required) →
    ∀ key ∈ required.keys, Text.equalIgnoringCase key package = false) ∧
  ∀ (autoload : Members) (files : Json),
    Members.get? "autoload" manifest.document = some (.object autoload) →
    Members.get? "files" autoload = some files → ∃ items, files = .array items

theorem takesPackage_iff {package constraint file : String} {manifest : Manifest}
    {required autoload : Members}
    (hrequired : Members.get? "require" manifest.document = some (.object required))
    (hautoload : Members.get? "autoload" manifest.document = some (.object autoload)) :
    TakesPackage package manifest ↔ manifest.hasDependency package = false ∧
      ∃ inserted wasAdded edited, manifest.insertDependency package constraint = .ok inserted ∧
        inserted.addAutoloadFile file = .ok (wasAdded, edited) := by
  obtain ⟨inserted, hinserted⟩ : ∃ inserted, manifest.withObject "require"
      (Members.put package (.string constraint) required) = inserted := ⟨_, rfl⟩
  have hinsert : manifest.insertDependency package constraint = .ok inserted := by
    rw [Manifest.insertDependency_eq_ok hrequired, hinserted]
  have hautoload' : Members.get? "autoload" inserted.document = some (.object autoload) := by
    rw [← hinserted, Manifest.get?_withObject, if_neg (by decide), hautoload]
  constructor
  · rintro ⟨hkeys, hfiles⟩
    refine ⟨?_, inserted, ?_⟩
    · rw [← Bool.not_eq_true, Manifest.hasDependency_iff hrequired]
      rintro ⟨key, hkey, hequal⟩
      simp [hkeys required hrequired key hkey] at hequal
    · obtain ⟨files?, hfiles?⟩ : ∃ files? : Option (List Json),
          Members.get? "files" autoload = files?.map .array := by
        cases hget : Members.get? "files" autoload with
        | none => exact ⟨none, rfl⟩
        | some files =>
          obtain ⟨items, rfl⟩ := hfiles autoload files hautoload hget
          exact ⟨some items, rfl⟩
      obtain ⟨wasAdded, edited, hadd⟩ := Manifest.exists_addAutoloadFile file hautoload' hfiles?
      exact ⟨wasAdded, edited, hinsert, hadd⟩
  · rintro ⟨hfresh, inserted', wasAdded, edited, hinsert', hadd⟩
    obtain rfl := Except.ok.inj (hinsert.symm.trans hinsert')
    obtain ⟨files?, hfiles?, -⟩ := Manifest.of_addAutoloadFile hautoload' hadd
    refine ⟨fun required' hrequired' => ?_, fun autoload' files hget hfiles => ?_⟩
    · exact Manifest.not_equalIgnoringCase_of_hasDependency hrequired' hfresh
    · obtain rfl : autoload = autoload' := by simpa using hautoload.symm.trans hget
      rw [hfiles?, Option.map_eq_some_iff] at hfiles
      obtain ⟨items, -, rfl⟩ := hfiles
      exact ⟨items, rfl⟩

/-- The manifest is saved, and after that the installer is called once. -/
def SavesAndInstalls (root : Path) (installer : Installer) (machine : Machine) : Prop :=
  ∃ r : Requiring root machine,
    after (add root .cmb2 installer) machine = after (installer.install r.project.root) r.saved ∧
    (after (add root .cmb2 installer) machine).calls =
      machine.calls ++ installer.calls r.project.root r.saved.tree

theorem Requiring.savesAndInstalls (r : Requiring root machine) (installer : Installer) :
    SavesAndInstalls root installer machine := by
  have hafter : after (add root .cmb2 installer) machine =
      after (installer.install r.project.root) r.saved := by
    rw [after, r.add_eq_install installer]
    exact after_bind_pure _ _ _
  exact ⟨r, hafter, by rw [hafter, Installer.after_install, r.calls_eq]⟩

theorem savesAndInstalls_of_takesPackage (hresolve : resolve root machine = .ok project machine)
    (hfaults : machine.faults = []) (htakes : TakesPackage "cmb2/cmb2" project.manifest) :
    SavesAndInstalls root installer machine := by
  obtain ⟨-, -, hload, hbase, hmapping, -⟩ := resolve_eq_ok hresolve
  obtain ⟨required, hrequired⟩ := Manifest.exists_required_of_hasDependency hbase
  obtain ⟨autoload, hautoload⟩ := Manifest.exists_autoload_of_namespaceMapping hmapping
  obtain ⟨hfresh, inserted, wasAdded, edited, hinsert, hadd⟩ :=
    (takesPackage_iff hrequired hautoload).mp htakes
  obtain ⟨-, content, modified, text, hentry, -, hparse⟩ := loadManifest_eq_ok.mp hload
  have hpath : edited.path = manifestPath machine root := by
    rw [Manifest.addAutoloadFile_path hadd, Manifest.insertDependency_path hinsert,
      Manifest.parse_path hparse]
  obtain ⟨saved, hreplace, -⟩ := exists_replaceFile hentry hfaults edited.render
  have hsave : saveManifest edited machine = .ok () saved := by
    rw [saveManifest, hpath, Files.replaceFile, orFail_eq_ok]
    exact hreplace
  obtain ⟨r, -, -⟩ := exists_requiring hresolve hfresh hinsert hadd hsave
  exact r.savesAndInstalls installer

/-- Where the manifest does not take the package, nothing is written and nothing is called. -/
theorem add_of_not_takesPackage (hresolve : resolve root machine = .ok project machine)
    (htakes : ¬ TakesPackage "cmb2/cmb2" project.manifest) :
    ∃ e, add root .cmb2 installer machine = .error e machine := by
  obtain ⟨-, -, hload, hbase, hmapping, -⟩ := resolve_eq_ok hresolve
  obtain ⟨required, hrequired⟩ := Manifest.exists_required_of_hasDependency hbase
  obtain ⟨autoload, hautoload⟩ := Manifest.exists_autoload_of_namespaceMapping hmapping
  have hstart : add root .cmb2 installer machine = project.addDependency .cmb2 "cmb2/cmb2"
      "dev-master" "vendor/cmb2/cmb2/init.php" installer machine :=
    bind_of_ok hresolve
  rw [hstart, addDependency]
  cases hfresh : project.manifest.hasDependency "cmb2/cmb2" with
  | true => exact ⟨_, rfl⟩
  | false =>
    obtain ⟨inserted, hinsert⟩ : ∃ inserted,
        project.manifest.insertDependency "cmb2/cmb2" "dev-master" = .ok inserted :=
      ⟨_, Manifest.insertDependency_eq_ok hrequired⟩
    cases hadd : inserted.addAutoloadFile "vendor/cmb2/cmb2/init.php" with
    | ok result =>
      exact absurd ((takesPackage_iff hrequired hautoload).mpr
        ⟨hfresh, _, result.1, result.2, hinsert, hadd⟩) htakes
    | error e =>
      refine ⟨e, ?_⟩
      rw [hinsert]
      refine (bind_of_ok (ofExcept_eq_ok.mpr ⟨rfl, rfl⟩)).trans (bind_eq_error.mpr (Or.inl ?_))
      rw [hadd]
      rfl

/-! ## Both -/

/-- An integration that is not added leaves the files as they were, whichever write fails, unless
only the installer fails; one that is added leaves the planned files and all else as it was. Where no
write fails, the manifest of a project is saved and the installer called once after that if the
manifest takes the package, and nothing is done otherwise. -/
theorem add_all_or_nothing (root : Path) (installer : Installer) (machine : Machine) :
    (match add root .ideHelper installer machine with
      | .error _ machine' => machine'.tree = machine.tree
      | .ok _ machine' => Nonempty (Attaching root machine machine')) ∧
    (match add root .cmb2 installer machine with
      | .error e machine' => machine'.tree = machine.tree ∧ machine'.calls = machine.calls ∨
          ∃ r : Requiring root machine,
            installer.install r.project.root r.saved = .error e machine'
      | .ok _ machine' => ∃ (r : Requiring root machine) (outcome : InstallOutcome),
          installer.install r.project.root r.saved = .ok outcome machine') ∧
    ∀ project, resolve root machine = .ok project machine → machine.faults = [] →
      (TakesPackage "cmb2/cmb2" project.manifest → SavesAndInstalls root installer machine) ∧
      (¬ TakesPackage "cmb2/cmb2" project.manifest →
        ∃ e, add root .cmb2 installer machine = .error e machine) :=
  ⟨add_ideHelper_cases root installer machine, add_cmb2_cases root installer machine,
    fun _ hresolve hfaults => ⟨savesAndInstalls_of_takesPackage hresolve hfaults,
      add_of_not_takesPackage hresolve⟩⟩

/-- A plugin that lists something else than a file takes the package. -/
theorem add_all_or_nothing_other_item : ∃ project,
    resolve "/p" (pluginWith "[1]") = .ok project (pluginWith "[1]") ∧
      (pluginWith "[1]").faults = [] ∧ TakesPackage "cmb2/cmb2" project.manifest ∧
      SavesAndInstalls "/p" .skip (pluginWith "[1]") := by
  obtain ⟨report, added, -, -, hadd, -⟩ := exists_round_pluginWith takesCmb2_other_item
  obtain ⟨project, hresolve, -⟩ := add_cmb2_eq_ok hadd
  obtain ⟨-, -, hpackage⟩ := add_all_or_nothing "/p" .skip (pluginWith "[1]")
  obtain ⟨hsaves, hfails⟩ := hpackage project hresolve rfl
  have htakes : TakesPackage "cmb2/cmb2" project.manifest := by
    by_contra hnot
    obtain ⟨e, herror⟩ := hfails hnot
    rw [hadd] at herror
    cases herror
  exact ⟨project, hresolve, rfl, htakes, hsaves htakes⟩

end Project

end PluginWorkshop
