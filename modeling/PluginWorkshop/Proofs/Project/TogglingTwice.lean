import PluginWorkshop.Proofs.Manifest.Dropping
import PluginWorkshop.Proofs.Project.Toggling

/-!
# Adding an integration twice, and removing it twice

A package that was added cannot be added again. One that was removed cannot be removed again if and
only if one key of `require` alone named it, since a removal takes one key away of all those that
name the package up to the case of their letters (`toggle_twice`).
-/

namespace PluginWorkshop

open Text (equalIgnoringCase)

/-- Installing dependencies leaves the manifest of a project as it is, and its main file where it
is. -/
def Installer.KeepsProject (installer : Installer) (root : Path) : Prop :=
  installer.KeepsManifest root ∧ ∀ ⦃machine outcome machine'⦄,
    installer.install (Project.canonicalRoot machine root) machine = .ok outcome machine' →
      Project.HasMainFile machine (Project.canonicalRoot machine root) →
      Project.HasMainFile machine' (Project.canonicalRoot machine root)

theorem Installer.keepsProject_skip (root : Path) : Installer.skip.KeepsProject root := by
  refine ⟨Installer.keepsManifest_skip root, ?_⟩
  intro machine outcome machine' h hmain
  obtain ⟨-, rfl⟩ := pure_eq_ok.mp h
  exact hmain

namespace Project

variable {machine machine' : Machine} {root : Path} {project : Project} {installer : Installer}
  {report : ToggleReport}

/-- Once an edited manifest is saved and the dependencies are installed, the project is found again
with the manifest that was saved. -/
theorem exists_resolve_saved (hinstaller : installer.KeepsProject root)
    (hresolve : resolve root machine = .ok project machine) {edited saved : Manifest}
    {middle : Machine} {outcome : InstallOutcome}
    (hpath : edited.path = manifestPath machine root)
    (hsave : saveManifest edited machine = .ok () middle)
    (hparse : Manifest.parse (manifestPath machine root) edited.render = .ok saved)
    (hbase : saved.hasDependency basePackage = true)
    (hmapping : ∀ {path mapping}, project.manifest.namespaceMapping path = .ok mapping →
      saved.namespaceMapping path = .ok mapping)
    (hinstall : installer.install project.root middle = .ok outcome machine') :
    ∃ project', resolve root machine' = .ok project' machine' ∧ project'.manifest = saved := by
  obtain ⟨-, hroot, hload, -, hmapped, -⟩ := resolve_eq_ok hresolve
  rw [hroot] at hinstall hmapped
  obtain ⟨-, hload'⟩ := load_saved hinstaller.1 hload hpath hsave hparse hinstall
  obtain ⟨-, hshape, hcwd⟩ := loadManifest_of_saveManifest hload hpath hsave hparse
  have hmiddle := canonicalRoot_congr hshape hcwd.symm root
  rw [hmiddle] at hinstall
  have hmain : HasMainFile middle (canonicalRoot middle root) := by
    obtain ⟨hslug, hmain⟩ := hasMainFile_of_resolve hresolve
    rw [← hmiddle]
    exact ⟨hslug, isFile_of_sameShape hshape hcwd.symm hmain⟩
  have hmain' := hinstaller.2 hinstall hmain
  obtain ⟨hroot', -⟩ := hinstaller.1 hinstall
  rw [← hroot'] at hmain'
  obtain ⟨project', hresolve', -, hmanifest⟩ := exists_resolve hload' hbase
    (by rw [hroot', ← hmiddle]; exact hmapping hmapped) hmain'
  exact ⟨project', hresolve', hmanifest⟩

theorem add_of_hasDependency (hresolve : resolve root machine = .ok project machine)
    (h : project.manifest.hasDependency "cmb2/cmb2" = true) :
    add root .cmb2 installer machine = .error (.alreadyPresent "cmb2") machine := by
  refine (bind_of_ok hresolve).trans ?_
  change project.addDependency .cmb2 "cmb2/cmb2" "dev-master" "vendor/cmb2/cmb2/init.php" installer
    machine = _
  rw [addDependency, h]
  rfl

/-- A package can be removed, as far as the manifest is concerned, if and only if it is required. -/
theorem remove_eq_notPresent_iff (hresolve : resolve root machine = .ok project machine) :
    (∀ installer, remove root .cmb2 installer machine = .error (.notPresent "cmb2") machine) ↔
      project.manifest.hasDependency "cmb2/cmb2" = false := by
  have hstart : ∀ installer, remove root .cmb2 installer machine = project.removeDependency .cmb2
      "cmb2/cmb2" "vendor/cmb2/cmb2/init.php" installer machine :=
    fun _ => bind_of_ok hresolve
  simp only [hstart, removeDependency]
  constructor
  · intro h
    by_contra hrequired
    obtain ⟨old, dropped, hdrop⟩ := Manifest.exists_removeDependency (by simpa using hrequired)
    have hskip := h .skip
    simp only [hdrop] at hskip
    -- Nothing but writing can fail now.
    rcases bind_eq_error.mp hskip with hsave | ⟨_, _, -, hrest⟩
    · rw [saveManifest, Files.replaceFile, Os.orFail_eq_error] at hsave
      obtain ⟨e, -, he⟩ := hsave
      cases he
    · cases hrest
  · intro h installer
    have hnone : project.manifest.removeDependency? "cmb2/cmb2" = none := by
      rw [Manifest.hasDependency, Option.isSome_eq_false_iff, Option.isNone_iff_eq_none] at h
      simp [Manifest.removeDependency?, h]
    rw [hnone]
    rfl

/-- A package that was added is required. -/
theorem exists_resolve_added (hinstaller : installer.KeepsProject root)
    (h : add root .cmb2 installer machine = .ok report machine') :
    ∃ project', resolve root machine' = .ok project' machine' ∧
      project'.manifest.hasDependency "cmb2/cmb2" = true := by
  obtain ⟨project, hresolve, h⟩ := add_cmb2_eq_ok h
  obtain ⟨-, -, hload, hbase, hmapping, -⟩ := resolve_eq_ok hresolve
  obtain ⟨-, -, -, text, -, -, hparse⟩ := loadManifest_eq_ok.mp hload
  obtain ⟨required, hrequired⟩ := Manifest.exists_required_of_hasDependency hbase
  obtain ⟨autoload, hautoload⟩ := Manifest.exists_autoload_of_namespaceMapping hmapping
  obtain ⟨hfresh, inserted, wasAdded, edited, middle, outcome, hinsert, hadd, hsave, hinstall⟩ :=
    addDependency_eq_ok h
  obtain rfl := Except.ok.inj (hinsert.symm.trans (Manifest.insertDependency_eq_ok hrequired))
  obtain ⟨files?, hfiles, -⟩ := Manifest.of_addAutoloadFile
    (by rw [Manifest.get?_withObject, if_neg (by decide), hautoload]) hadd
  obtain ⟨after, ⟨round⟩⟩ := Manifest.exists_round hparse hrequired hautoload hfiles hfresh
    "dev-master" "vendor/cmb2/cmb2/init.php"
  rw [Except.ok.inj (hinsert.symm.trans round.insert)] at hadd
  obtain ⟨-, rfl⟩ := Prod.mk.inj (Except.ok.inj (hadd.symm.trans round.add))
  have hpath : round.added.path = manifestPath machine root := by
    rw [Manifest.addAutoloadFile_path round.add, Manifest.insertDependency_path round.insert,
      Manifest.parse_path round.read_before]
  obtain ⟨project', hresolve', hmanifest⟩ := exists_resolve_saved hinstaller hresolve hpath hsave
    round.read_saved (round.hasDependency_saved hbase) round.namespaceMapping_saved hinstall
  refine ⟨project', hresolve', ?_⟩
  rw [hmanifest, Manifest.hasDependency_iff round.get?_saved_require]
  exact ⟨"cmb2/cmb2", Members.mem_keys_of_mem (Members.mem_of_get?
    (by rw [Members.get?_put, if_pos rfl])), by decide⟩

/-- A package that was removed is required still if and only if another key names it. -/
theorem exists_resolve_removed (hinstaller : installer.KeepsProject root)
    (h : remove root .cmb2 installer machine = .ok report machine') :
    ∃ (before : Manifest) (required : Members) (project' : Project),
      loadManifest (manifestPath machine root) machine = .ok before machine ∧
      Members.get? "require" before.document = some (.object required) ∧
      resolve root machine' = .ok project' machine' ∧
      (project'.manifest.hasDependency "cmb2/cmb2" = false ↔
        ∃! key, key ∈ required.keys ∧ equalIgnoringCase key "cmb2/cmb2" = true) := by
  obtain ⟨project, hresolve, h⟩ := remove_cmb2_eq_ok h
  obtain ⟨-, -, hload, hbase, hmapping, -⟩ := resolve_eq_ok hresolve
  obtain ⟨-, -, -, text, -, -, hparse⟩ := loadManifest_eq_ok.mp hload
  obtain ⟨required, hrequired⟩ := Manifest.exists_required_of_hasDependency hbase
  obtain ⟨autoload, hautoload⟩ := Manifest.exists_autoload_of_namespaceMapping hmapping
  obtain ⟨old, dropped, middle, outcome, hdrop, hsave, hinstall⟩ := removeDependency_eq_ok h
  obtain ⟨after, d, rfl⟩ :=
    Manifest.exists_drop hparse hrequired hautoload hdrop "vendor/cmb2/cmb2/init.php"
  have hpath : (d.dropped.removeAutoloadFile "vendor/cmb2/cmb2/init.php").2.path =
      manifestPath machine root := by
    rw [Manifest.removeAutoloadFile_path, Manifest.removeDependency?_path d.drop,
      Manifest.parse_path hparse]
  obtain ⟨project', hresolve', hmanifest⟩ := exists_resolve_saved hinstaller hresolve hpath hsave
    d.read_after (d.hasDependency_after (by decide) hbase) d.namespaceMapping_after hinstall
  refine ⟨project.manifest, d.required, project', hload, d.get?_require, hresolve', ?_⟩
  rw [hmanifest]
  exact d.hasDependency_after_eq_false_iff

/-- Adding the package a second time fails and changes nothing. Removing it a second time fails and
changes nothing either, if and only if one key alone named the package before the first time. -/
theorem toggle_twice (hinstaller : installer.KeepsProject root) :
    (add root .cmb2 installer machine = .ok report machine' →
      ∀ installer', add root .cmb2 installer' machine' =
        .error (.alreadyPresent "cmb2") machine') ∧
    (remove root .cmb2 installer machine = .ok report machine' →
      ∃ (before : Manifest) (required : Members),
        loadManifest (manifestPath machine root) machine = .ok before machine ∧
        Members.get? "require" before.document = some (.object required) ∧
        ((∀ installer', remove root .cmb2 installer' machine' =
            .error (.notPresent "cmb2") machine') ↔
          ∃! key, key ∈ required.keys ∧ equalIgnoringCase key "cmb2/cmb2" = true)) := by
  refine ⟨fun h installer' => ?_, fun h => ?_⟩
  · obtain ⟨project', hresolve', hrequired⟩ := exists_resolve_added hinstaller h
    exact add_of_hasDependency hresolve' hrequired
  · obtain ⟨before, required, project', hload, hrequired, hresolve', hiff⟩ :=
      exists_resolve_removed hinstaller h
    exact ⟨before, required, hload, hrequired,
      (remove_eq_notPresent_iff hresolve').trans hiff⟩

/-- A plugin that lists something else than a file, before and after the package is added. -/
theorem toggle_twice_other_item :
    ∃ report added report' removed,
      add "/p" .cmb2 .skip (pluginWith "[1]") = .ok report added ∧
      (∀ installer, add "/p" .cmb2 installer added = .error (.alreadyPresent "cmb2") added) ∧
      remove "/p" .cmb2 .skip added = .ok report' removed ∧
      ∃ (before : Manifest) (required : Members),
        loadManifest (manifestPath added "/p") added = .ok before added ∧
        Members.get? "require" before.document = some (.object required) ∧
        ((∀ installer, remove "/p" .cmb2 installer removed =
            .error (.notPresent "cmb2") removed) ↔
          ∃! key, key ∈ required.keys ∧ equalIgnoringCase key "cmb2/cmb2" = true) := by
  obtain ⟨report, added, report', removed, hadd, hremove⟩ :=
    exists_round_pluginWith takesCmb2_other_item
  have hskip := Installer.keepsProject_skip "/p"
  exact ⟨report, added, report', removed, hadd, (toggle_twice hskip).1 hadd, hremove,
    (toggle_twice hskip).2 hremove⟩

/-- A small plugin in the directory `p` that requires the package under two keys. -/
def pluginRequiringTwice : Machine :=
  .ofTree <| .directory [("p", .directory [
    ("composer.json", .file ("\x7b\"require\":\x7b\"mehrshaddarzi/wp-trait\":1," ++
      "\"CMB2/cmb2\":1,\"cmb2/cmb2\":1\x7d," ++
      "\"autoload\":\x7b\"psr-4\":\x7b\"P\":\"\"\x7d\x7d\x7d").toUTF8 0),
    ("p.php", .file .empty 0)])]

/-- Where no write fails, a package that is required can be removed. -/
theorem Ready.exists_remove_of_hasDependency {before : Manifest} (h : Ready root machine before)
    (hrequired : before.hasDependency "cmb2/cmb2" = true) :
    ∃ report removed, remove root .cmb2 .skip machine = .ok report removed ∧
      removed.faults = [] := by
  obtain ⟨project, hresolve, rfl⟩ := h.exists_resolve
  obtain ⟨old, dropped, hdrop⟩ := Manifest.exists_removeDependency hrequired
  obtain ⟨-, content, modified, text, hentry, -, hparse⟩ := loadManifest_eq_ok.mp h.load
  have hpath : (dropped.removeAutoloadFile "vendor/cmb2/cmb2/init.php").2.path =
      manifestPath machine root := by
    rw [Manifest.removeAutoloadFile_path, Manifest.removeDependency?_path hdrop,
      Manifest.parse_path hparse]
  obtain ⟨removed, hreplace, hfaults⟩ := Os.exists_replaceFile hentry h.faults
    (dropped.removeAutoloadFile "vendor/cmb2/cmb2/init.php").2.render
  have hsave : saveManifest (dropped.removeAutoloadFile "vendor/cmb2/cmb2/init.php").2 machine =
      .ok () removed := by
    rw [saveManifest, hpath, Files.replaceFile, Os.orFail_eq_ok]
    exact hreplace
  refine ⟨⟨.cmb2, .removed, [(dropped.removeAutoloadFile "vendor/cmb2/cmb2/init.php").2.path], [],
    some .skipped⟩, removed, bind_eq_ok.mpr ⟨project, machine, hresolve, ?_⟩, hfaults⟩
  simp only [Integration.target, removeDependency, hdrop]
  exact bind_eq_ok.mpr ⟨(), removed, hsave, rfl⟩

/-- Where no write fails, a package that two keys name can be removed twice. -/
theorem exists_remove_twice (hfaults : machine.faults = [])
    (hresolve : resolve root machine = .ok project machine) {required : Members}
    (hrequired : Members.get? "require" project.manifest.document = some (.object required))
    {key key' : String} (hkey : key ∈ required.keys) (hkey' : key' ∈ required.keys)
    (hne : key ≠ key') (hnames : equalIgnoringCase key "cmb2/cmb2" = true)
    (hnames' : equalIgnoringCase key' "cmb2/cmb2" = true) :
    ∃ report removed report' again, remove root .cmb2 .skip machine = .ok report removed ∧
      remove root .cmb2 .skip removed = .ok report' again := by
  have hready := ready_of_resolve hfaults hresolve
  obtain ⟨report, removed, hremove, hfaults'⟩ := hready.exists_remove_of_hasDependency
    ((Manifest.hasDependency_iff hrequired).mpr ⟨key, hkey, hnames⟩)
  obtain ⟨before, required', project', hload, hrequired', hresolve', hiff⟩ :=
    exists_resolve_removed (Installer.keepsProject_skip root) hremove
  obtain rfl : project.manifest = before := by simpa using hready.load.symm.trans hload
  obtain rfl : required = required' := by simpa using hrequired.symm.trans hrequired'
  have hstill : project'.manifest.hasDependency "cmb2/cmb2" = true := by
    by_contra hnone
    obtain ⟨only, -, honly⟩ := hiff.mp (by simpa using hnone)
    exact hne ((honly key ⟨hkey, hnames⟩).trans (honly key' ⟨hkey', hnames'⟩).symm)
  obtain ⟨report', again, hagain, -⟩ :=
    (ready_of_resolve hfaults' hresolve').exists_remove_of_hasDependency hstill
  exact ⟨report, removed, report', again, hremove, hagain⟩

/-- The project is found, and requires the package under two keys. -/
def RequiresTwice (machine : Machine) : Bool :=
  match resolve "/p" machine with
  | .ok project _ =>
    match Members.get? "require" project.manifest.document with
    | some (.object required) =>
      (Members.keys required).contains "CMB2/cmb2" &&
        (Members.keys required).contains "cmb2/cmb2"
    | _ => false
  | .error _ _ => false

theorem exists_remove_twice_of_requiresTwice (hfaults : machine.faults = [])
    (h : RequiresTwice machine = true) :
    ∃ report removed report' again, remove "/p" .cmb2 .skip machine = .ok report removed ∧
      remove "/p" .cmb2 .skip removed = .ok report' again := by
  unfold RequiresTwice at h
  split at h
  · next project _ hresolve =>
    obtain ⟨rfl, -⟩ := resolve_eq_ok hresolve
    split at h
    · next required hrequired =>
      obtain ⟨hupper, hlower⟩ := Bool.and_eq_true_iff.mp h
      exact exists_remove_twice hfaults hresolve hrequired (List.contains_iff_mem.mp hupper)
        (List.contains_iff_mem.mp hlower) (by decide) (by decide) (by decide)
    · cases h
  · cases h

theorem requiresTwice_pluginRequiringTwice : RequiresTwice pluginRequiringTwice = true := by
  decide +kernel

/-- A package that is required under two keys can be removed twice. -/
theorem not_notPresent_of_two_keys : ∃ report removed report' again,
    remove "/p" .cmb2 .skip pluginRequiringTwice = .ok report removed ∧
      remove "/p" .cmb2 .skip removed = .ok report' again :=
  exists_remove_twice_of_requiresTwice rfl requiresTwice_pluginRequiringTwice

end Project

end PluginWorkshop
