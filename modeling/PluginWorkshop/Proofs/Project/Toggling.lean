import PluginWorkshop.Project.Integration
import PluginWorkshop.Proofs.Manifest.Repeating
import PluginWorkshop.Proofs.Project.Resolving

/-!
# Adding an integration and removing it

An integration that is a package is added by saving the manifest with the package in it, and
removed by saving the manifest that was read again without it (`same_document_iff`). What comes
between, the installation of dependencies, has to leave the manifest alone
(`Installer.KeepsManifest`). Where no write fails, what can be added can be removed again
(`exists_remove_of_add`).
-/

namespace PluginWorkshop

open Json (Same)

/-- Installing dependencies leaves the root of a project and its manifest as they are: Composer
writes its lock file and the directory of the packages only. -/
def Installer.KeepsManifest (installer : Installer) (root : Path) : Prop :=
  ∀ ⦃machine outcome machine'⦄,
    installer.install (Project.canonicalRoot machine root) machine = .ok outcome machine' →
      Project.canonicalRoot machine' root = Project.canonicalRoot machine root ∧
      Os.entryAt machine' (Project.manifestPath machine root) =
        Os.entryAt machine (Project.manifestPath machine root)

theorem Installer.keepsManifest_skip (root : Path) : Installer.skip.KeepsManifest root := by
  intro machine outcome machine' h
  obtain ⟨-, rfl⟩ := pure_eq_ok.mp h
  exact ⟨rfl, rfl⟩

namespace Project

variable {machine machine' : Machine} {root : Path} {project : Project} {integration : Integration}
  {package constraint file : String} {installer : Installer} {report : ToggleReport}

theorem addDependency_eq_ok
    (h : project.addDependency integration package constraint file installer machine =
      .ok report machine') :
    project.manifest.hasDependency package = false ∧ ∃ inserted wasAdded added saved outcome,
      project.manifest.insertDependency package constraint = .ok inserted ∧
      inserted.addAutoloadFile file = .ok (wasAdded, added) ∧
      saveManifest added machine = .ok () saved ∧
      installer.install project.root saved = .ok outcome machine' := by
  rw [addDependency] at h
  split at h
  · exact absurd h throw_bind_ne_ok
  next hfresh =>
  obtain ⟨inserted, _, hinserted, h⟩ := bind_eq_ok.mp h
  obtain ⟨hinsert, rfl⟩ := ofExcept_eq_ok.mp hinserted
  obtain ⟨⟨wasAdded, added⟩, _, hadded, h⟩ := bind_eq_ok.mp h
  obtain ⟨hadd, rfl⟩ := ofExcept_eq_ok.mp hadded
  obtain ⟨⟨⟩, saved, hsave, h⟩ := bind_eq_ok.mp h
  obtain ⟨outcome, _, hinstall, h⟩ := bind_eq_ok.mp h
  obtain ⟨-, rfl⟩ := pure_eq_ok.mp h
  exact ⟨by simpa using hfresh, inserted, wasAdded, added, saved, outcome, hinsert, hadd, hsave,
    hinstall⟩

theorem removeDependency_eq_ok
    (h : project.removeDependency integration package file installer machine =
      .ok report machine') :
    ∃ old removed saved outcome,
      project.manifest.removeDependency? package = some (old, removed) ∧
      saveManifest (removed.removeAutoloadFile file).2 machine = .ok () saved ∧
      installer.install project.root saved = .ok outcome machine' := by
  rw [removeDependency] at h
  cases hremove : project.manifest.removeDependency? package with
  | none => simp [hremove] at h
  | some entry =>
    rw [hremove] at h
    obtain ⟨⟨⟩, saved, hsave, h⟩ := bind_eq_ok.mp h
    obtain ⟨outcome, _, hinstall, h⟩ := bind_eq_ok.mp h
    obtain ⟨-, rfl⟩ := pure_eq_ok.mp h
    exact ⟨entry.1, entry.2, saved, outcome, rfl, hsave, hinstall⟩

theorem add_cmb2_eq_ok (h : add root .cmb2 installer machine = .ok report machine') :
    ∃ project, resolve root machine = .ok project machine ∧
      project.addDependency .cmb2 "cmb2/cmb2" "dev-master" "vendor/cmb2/cmb2/init.php" installer
        machine = .ok report machine' := by
  obtain ⟨project, _, hresolve, h⟩ := bind_eq_ok.mp h
  obtain ⟨rfl, -⟩ := resolve_eq_ok hresolve
  exact ⟨project, hresolve, h⟩

theorem remove_cmb2_eq_ok (h : remove root .cmb2 installer machine = .ok report machine') :
    ∃ project, resolve root machine = .ok project machine ∧
      project.removeDependency .cmb2 "cmb2/cmb2" "vendor/cmb2/cmb2/init.php" installer machine =
        .ok report machine' := by
  obtain ⟨project, _, hresolve, h⟩ := bind_eq_ok.mp h
  obtain ⟨rfl, -⟩ := resolve_eq_ok hresolve
  exact ⟨project, hresolve, h⟩

/-! ## The manifest before and after -/

theorem loadManifest_congr {path : Path} {manifest : Manifest}
    (hfile : Os.entryAt machine' path = Os.entryAt machine path)
    (h : loadManifest path machine = .ok manifest machine) :
    loadManifest path machine' = .ok manifest machine' := by
  obtain ⟨-, content, modified, text, hentry, htext, hparse⟩ := loadManifest_eq_ok.mp h
  exact loadManifest_eq_ok.mpr ⟨rfl, content, modified, text, hfile.trans hentry, htext, hparse⟩

/-- A manifest that was saved and lived through an installation is found again. -/
theorem load_saved (hinstaller : installer.KeepsManifest root) {before edited saved : Manifest}
    {middle : Machine} {outcome : InstallOutcome}
    (hload : loadManifest (manifestPath machine root) machine = .ok before machine)
    (hpath : edited.path = manifestPath machine root)
    (hsave : saveManifest edited machine = .ok () middle)
    (hparse : Manifest.parse (manifestPath machine root) edited.render = .ok saved)
    (hinstall : installer.install (canonicalRoot machine root) middle = .ok outcome machine') :
    manifestPath machine' root = manifestPath machine root ∧
      loadManifest (manifestPath machine' root) machine' = .ok saved machine' := by
  obtain ⟨hmiddle, hshape, hcwd⟩ := loadManifest_of_saveManifest hload hpath hsave hparse
  have hroot := canonicalRoot_congr hshape hcwd.symm root
  have hmanifestPath : manifestPath middle root = manifestPath machine root := by
    rw [manifestPath, manifestPath, hroot]
  obtain ⟨hroot', hfile⟩ := hinstaller (hroot ▸ hinstall)
  have hmanifestPath' : manifestPath machine' root = manifestPath machine root := by
    rw [manifestPath, hroot', ← manifestPath, hmanifestPath]
  rw [hmanifestPath] at hfile
  exact ⟨hmanifestPath', hmanifestPath' ▸ loadManifest_congr hfile hmiddle⟩

/-- Adding the package and removing it again is a round of the manifest. -/
theorem exists_round_of_installers {installer' : Installer} {added removed : Machine}
    {report' : ToggleReport} (hinstaller : installer.KeepsManifest root)
    (hinstaller' : installer'.KeepsManifest root)
    (hadd : add root .cmb2 installer machine = .ok report added)
    (hremove : remove root .cmb2 installer' added = .ok report' removed) :
    ∃ before after, loadManifest (manifestPath machine root) machine = .ok before machine ∧
      manifestPath removed root = manifestPath machine root ∧
      loadManifest (manifestPath removed root) removed = .ok after removed ∧
      Nonempty (Manifest.Round "cmb2/cmb2" "dev-master" "vendor/cmb2/cmb2/init.php"
        (manifestPath machine root) before after) := by
  obtain ⟨project, hresolve, hadd⟩ := add_cmb2_eq_ok hadd
  obtain ⟨-, hroot, hload, hbase, hmapping, -⟩ := resolve_eq_ok hresolve
  obtain ⟨-, -, -, text, -, -, hparse⟩ := loadManifest_eq_ok.mp hload
  obtain ⟨hfresh, inserted, wasAdded, edited, middle, outcome, hinsert, hfile, hsave, hinstall⟩ :=
    addDependency_eq_ok hadd
  have hsound := ((Manifest.sound_of_parse hparse).insertDependency hinsert).addAutoloadFile hfile
  obtain ⟨saved, hsaved, -⟩ := hsound.parse_render (manifestPath machine root)
  have hpath : edited.path = manifestPath machine root := by
    rw [Manifest.addAutoloadFile_path hfile, Manifest.insertDependency_path hinsert,
      Manifest.parse_path hparse]
  obtain ⟨hadded, hloadAdded⟩ := load_saved hinstaller hload hpath hsave hsaved (hroot ▸ hinstall)
  -- The second half starts from the manifest that was saved.
  obtain ⟨project', hresolve', hremove⟩ := remove_cmb2_eq_ok hremove
  obtain ⟨-, hroot', hload', -⟩ := resolve_eq_ok hresolve'
  obtain rfl : saved = project'.manifest := by
    simpa using hloadAdded.symm.trans hload'
  obtain ⟨old, dropped, middle', outcome', hdrop, hsave', hinstall'⟩ :=
    removeDependency_eq_ok hremove
  rw [hadded] at hload'
  obtain ⟨-, -, -, text', -, -, hparse'⟩ := loadManifest_eq_ok.mp hload'
  have hsound' := ((Manifest.sound_of_parse hparse').removeDependency hdrop).removeAutoloadFile
    "vendor/cmb2/cmb2/init.php"
  obtain ⟨after, hafter, -⟩ := hsound'.parse_render (manifestPath machine root)
  have hpath' : (dropped.removeAutoloadFile "vendor/cmb2/cmb2/init.php").2.path =
      manifestPath added root := by
    rw [Manifest.removeAutoloadFile_path, Manifest.removeDependency?_path hdrop,
      Manifest.parse_path hparse', hadded]
  obtain ⟨hremoved, hloadRemoved⟩ := load_saved hinstaller' (hadded ▸ hload') hpath' hsave'
    (hadded ▸ hafter) (hroot' ▸ hinstall')
  obtain ⟨required, hrequired⟩ := Manifest.exists_required_of_hasDependency hbase
  obtain ⟨autoload, hautoload⟩ := Manifest.exists_autoload_of_namespaceMapping hmapping
  exact ⟨project.manifest, after, hload, hremoved.trans hadded, hloadRemoved,
    ⟨⟨text, hparse, required, hrequired, autoload, hautoload, hfresh, inserted, hinsert, wasAdded,
      edited, hfile, project'.manifest, hsaved, old, dropped, hdrop, hafter⟩⟩⟩

theorem exists_round {added removed : Machine} {report' : ToggleReport}
    (hinstaller : installer.KeepsManifest root)
    (hadd : add root .cmb2 installer machine = .ok report added)
    (hremove : remove root .cmb2 installer added = .ok report' removed) :
    ∃ before after, loadManifest (manifestPath machine root) machine = .ok before machine ∧
      manifestPath removed root = manifestPath machine root ∧
      loadManifest (manifestPath removed root) removed = .ok after removed ∧
      Nonempty (Manifest.Round "cmb2/cmb2" "dev-master" "vendor/cmb2/cmb2/init.php"
        (manifestPath machine root) before after) :=
  exists_round_of_installers hinstaller hinstaller hadd hremove

/-! ## Rounds that run through -/

/-- A project with its manifest, on a machine on which nothing fails. -/
structure Ready (root : Path) (machine : Machine) (manifest : Manifest) : Prop where
  load : loadManifest (manifestPath machine root) machine = .ok manifest machine
  base : manifest.hasDependency basePackage = true
  mapping : ∃ mapping, manifest.namespaceMapping (canonicalRoot machine root) = .ok mapping
  main : HasMainFile machine (canonicalRoot machine root)
  faults : machine.faults = []

/-- A round of the manifest at a path with the package and its file. -/
abbrev CmbRound (path : Path) (before after : Manifest) : Type :=
  Manifest.Round "cmb2/cmb2" "dev-master" "vendor/cmb2/cmb2/init.php" path before after

namespace Ready

variable {before after edited saved : Manifest} (h : Ready root machine before)
include h

/-- An edited manifest can be saved, and is the manifest of the project then. -/
theorem exists_saveManifest (hpath : edited.path = manifestPath machine root)
    (hparse : Manifest.parse (manifestPath machine root) edited.render = .ok saved)
    (hbase : saved.hasDependency basePackage = true)
    (hmapping : ∀ {path mapping}, before.namespaceMapping path = .ok mapping →
      saved.namespaceMapping path = .ok mapping) :
    ∃ machine', saveManifest edited machine = .ok () machine' ∧
      manifestPath machine' root = manifestPath machine root ∧ Ready root machine' saved := by
  obtain ⟨-, content, modified, text, hentry, -⟩ := loadManifest_eq_ok.mp h.load
  obtain ⟨machine', hreplace, hfaults⟩ := Os.exists_replaceFile hentry h.faults edited.render
  have hsave : saveManifest edited machine = .ok () machine' := by
    rw [saveManifest, hpath, Files.replaceFile, Os.orFail_eq_ok]
    exact hreplace
  obtain ⟨hload, hshape, hcwd⟩ := loadManifest_of_saveManifest h.load hpath hsave hparse
  have hroot := canonicalRoot_congr hshape hcwd.symm root
  have hmanifestPath : manifestPath machine' root = manifestPath machine root := by
    rw [manifestPath, manifestPath, hroot]
  obtain ⟨mapping, hmapped⟩ := h.mapping
  obtain ⟨hslug, hmain⟩ := h.main
  refine ⟨machine', hsave, hmanifestPath, hmanifestPath ▸ hload, hbase, ?_, ?_, hfaults⟩
  · exact ⟨mapping, hroot ▸ hmapping hmapped⟩
  · rw [← hroot]
    exact ⟨hslug, isFile_of_sameShape hshape hcwd.symm hmain⟩

theorem exists_resolve : ∃ project, resolve root machine = .ok project machine ∧
    project.manifest = before := by
  obtain ⟨mapping, hmapping⟩ := h.mapping
  obtain ⟨project, hresolve, -, hmanifest⟩ :=
    Project.exists_resolve h.load h.base hmapping h.main
  exact ⟨project, hresolve, hmanifest⟩

theorem exists_add (round : CmbRound (manifestPath machine root) before after) :
    ∃ report added, add root .cmb2 .skip machine = .ok report added ∧
      manifestPath added root = manifestPath machine root ∧ Ready root added round.saved := by
  obtain ⟨project, hresolve, rfl⟩ := h.exists_resolve
  have hpath : round.added.path = manifestPath machine root := by
    rw [Manifest.addAutoloadFile_path round.add, Manifest.insertDependency_path round.insert,
      Manifest.parse_path round.read_before]
  obtain ⟨added, hsave, hmanifestPath, hready⟩ := h.exists_saveManifest hpath round.read_saved
    (round.hasDependency_saved h.base) round.namespaceMapping_saved
  refine ⟨⟨.cmb2, .added, [round.added.path], [], some .skipped⟩, added,
    bind_eq_ok.mpr ⟨project, machine, hresolve, ?_⟩, hmanifestPath, hready⟩
  simp only [Integration.target, addDependency, round.fresh, Bool.false_eq_true, if_false]
  refine bind_eq_ok.mpr ⟨round.inserted, machine, ofExcept_eq_ok.mpr ⟨round.insert, rfl⟩, ?_⟩
  refine bind_eq_ok.mpr ⟨_, machine, ofExcept_eq_ok.mpr ⟨round.add, rfl⟩, ?_⟩
  exact bind_eq_ok.mpr ⟨(), added, hsave, rfl⟩

theorem exists_remove (round : CmbRound (manifestPath machine root) before after) {added : Machine}
    (hpath : manifestPath added root = manifestPath machine root)
    (hadded : Ready root added round.saved) :
    ∃ report removed, remove root .cmb2 .skip added = .ok report removed ∧
      manifestPath removed root = manifestPath machine root ∧ Ready root removed after := by
  obtain ⟨project, hresolve, hmanifest⟩ := hadded.exists_resolve
  have hfinal : (round.dropped.removeAutoloadFile "vendor/cmb2/cmb2/init.php").2.path =
      manifestPath added root := by
    rw [Manifest.removeAutoloadFile_path, Manifest.removeDependency?_path round.drop,
      Manifest.parse_path round.read_saved, hpath]
  have hread : Manifest.parse (manifestPath added root)
      (round.dropped.removeAutoloadFile "vendor/cmb2/cmb2/init.php").2.render = .ok after := by
    rw [hpath, round.read_after]
  obtain ⟨removed, hsave, hmanifestPath, hready⟩ := hadded.exists_saveManifest hfinal hread
    ((round.hasDependency_after _).trans h.base) round.namespaceMapping_after
  refine ⟨⟨.cmb2, .removed,
    [(round.dropped.removeAutoloadFile "vendor/cmb2/cmb2/init.php").2.path], [], some .skipped⟩,
    removed, bind_eq_ok.mpr ⟨project, added, hresolve, ?_⟩, hmanifestPath.trans hpath, hready⟩
  simp only [Integration.target, removeDependency, hmanifest, round.drop]
  exact bind_eq_ok.mpr ⟨(), removed, hsave, rfl⟩

end Ready

theorem ready_of_resolve (hfaults : machine.faults = [])
    (hresolve : resolve root machine = .ok project machine) :
    Ready root machine project.manifest := by
  obtain ⟨-, hroot, hload, hbase, hmapping, -⟩ := resolve_eq_ok hresolve
  exact ⟨hload, hbase, ⟨project.mapping, hroot ▸ hmapping⟩, hasMainFile_of_resolve hresolve,
    hfaults⟩

/-- A project to which the package can be added is ready for a round where no write fails. -/
theorem exists_ready_of_add (hfaults : machine.faults = [])
    (hadd : add root .cmb2 installer machine = .ok report machine') :
    ∃ before after, Ready root machine before ∧
      Nonempty (CmbRound (manifestPath machine root) before after) := by
  obtain ⟨project, hresolve, hadd⟩ := add_cmb2_eq_ok hadd
  obtain ⟨-, -, hload, hbase, hmapping, -⟩ := resolve_eq_ok hresolve
  obtain ⟨-, -, -, text, -, -, hparse⟩ := loadManifest_eq_ok.mp hload
  obtain ⟨hfresh, inserted, wasAdded, edited, -, -, hinsert, hfile, -, -⟩ := addDependency_eq_ok hadd
  obtain ⟨required, hrequired⟩ := Manifest.exists_required_of_hasDependency hbase
  obtain ⟨autoload, hautoload⟩ := Manifest.exists_autoload_of_namespaceMapping hmapping
  obtain rfl := Except.ok.inj (hinsert.symm.trans (Manifest.insertDependency_eq_ok hrequired))
  obtain ⟨files?, hfiles, -⟩ := Manifest.of_addAutoloadFile
    (by rw [Manifest.get?_withObject, if_neg (by decide), hautoload]) hfile
  obtain ⟨after, hround⟩ :=
    Manifest.exists_round hparse hrequired hautoload hfiles hfresh "dev-master" _
  exact ⟨project.manifest, after, ready_of_resolve hfaults hresolve, hround⟩

/-- Where the package can be added and no write fails, it can be added and removed again. -/
theorem exists_remove_of_add (hfaults : machine.faults = [])
    (hadd : add root .cmb2 installer machine = .ok report machine') :
    ∃ report added report' removed, add root .cmb2 .skip machine = .ok report added ∧
      remove root .cmb2 .skip added = .ok report' removed := by
  obtain ⟨before, after, hready, ⟨round⟩⟩ := exists_ready_of_add hfaults hadd
  obtain ⟨report, added, hadd, hpath, hadded⟩ := hready.exists_add round
  obtain ⟨report', removed, hremove, -⟩ := hready.exists_remove round hpath hadded
  exact ⟨report, added, report', removed, hadd, hremove⟩

/-- Once the package is added and removed again, the manifest holds the document from before if and
only if its list of files, where there was one, was not empty and did not hold the file. -/
theorem same_document_iff {added removed : Machine} {report' : ToggleReport}
    (hinstaller : installer.KeepsManifest root)
    (hadd : add root .cmb2 installer machine = .ok report added)
    (hremove : remove root .cmb2 installer added = .ok report' removed) :
    ∃ before after, loadManifest (manifestPath machine root) machine = .ok before machine ∧
      manifestPath removed root = manifestPath machine root ∧
      loadManifest (manifestPath removed root) removed = .ok after removed ∧
      (Same (.object after.document) (.object before.document) ↔
        ∀ files, before.fileList? = some files → files ≠ [] ∧
          files.any (Manifest.isText "vendor/cmb2/cmb2/init.php") = false) := by
  obtain ⟨before, after, hbefore, hpath, hafter, ⟨round⟩⟩ := exists_round hinstaller hadd hremove
  exact ⟨before, after, hbefore, hpath, hafter, round.same_iff⟩

/-- A small plugin in the directory `p`, with a list of files given by its text. -/
def pluginWith (files : String) : Machine :=
  .ofTree <| .directory [("p", .directory [
    ("composer.json", .file ("\x7b\n\t\"require\":\x7b\"mehrshaddarzi/wp-trait\":1\x7d," ++
      "\"autoload\":\x7b\"psr-4\":\x7b\"P\":\"\"\x7d,\"files\":" ++ files ++ "\x7d\x7d").toUTF8 0),
    ("p.php", .file .empty 0)])]

/-- The package can be added to the plugin. -/
def TakesCmb2 (machine : Machine) : Bool :=
  match add "/p" .cmb2 .skip machine with
  | .ok _ _ => true
  | .error _ _ => false

theorem exists_round_pluginWith {files : String} (h : TakesCmb2 (pluginWith files) = true) :
    ∃ report added report' removed,
      add "/p" .cmb2 .skip (pluginWith files) = .ok report added ∧
      remove "/p" .cmb2 .skip added = .ok report' removed := by
  unfold TakesCmb2 at h
  split at h
  · next report added hadd => exact exists_remove_of_add rfl hadd
  · cases h

theorem takesCmb2_other_item : TakesCmb2 (pluginWith "[1]") = true := by decide +kernel

theorem takesCmb2_empty_list : TakesCmb2 (pluginWith "[]") = true := by decide +kernel

/-- A list with something else in it is there again after the round. -/
theorem same_document_iff_other_item :
    ∃ report added report' removed,
      add "/p" .cmb2 .skip (pluginWith "[1]") = .ok report added ∧
      remove "/p" .cmb2 .skip added = .ok report' removed ∧
      ∃ before after,
        loadManifest (manifestPath (pluginWith "[1]") "/p") (pluginWith "[1]") =
          .ok before (pluginWith "[1]") ∧
        manifestPath removed "/p" = manifestPath (pluginWith "[1]") "/p" ∧
        loadManifest (manifestPath removed "/p") removed = .ok after removed ∧
        (Same (.object after.document) (.object before.document) ↔
          ∀ files, before.fileList? = some files → files ≠ [] ∧
            files.any (Manifest.isText "vendor/cmb2/cmb2/init.php") = false) := by
  obtain ⟨report, added, report', removed, hadd, hremove⟩ :=
    exists_round_pluginWith takesCmb2_other_item
  exact ⟨report, added, report', removed, hadd, hremove,
    same_document_iff (Installer.keepsManifest_skip "/p") hadd hremove⟩

/-- An empty list of files is lost in the round. -/
theorem not_same_document_of_empty_list :
    ∃ report added report' removed before after,
      add "/p" .cmb2 .skip (pluginWith "[]") = .ok report added ∧
      remove "/p" .cmb2 .skip added = .ok report' removed ∧
      loadManifest (manifestPath (pluginWith "[]") "/p") (pluginWith "[]") =
        .ok before (pluginWith "[]") ∧
      loadManifest (manifestPath removed "/p") removed = .ok after removed ∧
      ¬ Same (.object after.document) (.object before.document) := by
  obtain ⟨report, added, report', removed, hadd, hremove⟩ :=
    exists_round_pluginWith takesCmb2_empty_list
  obtain ⟨before, after, hbefore, -, hafter, ⟨round⟩⟩ :=
    exists_round (Installer.keepsManifest_skip "/p") hadd hremove
  refine ⟨report, added, report', removed, before, after, hadd, hremove, hbefore, hafter,
    fun hsame => ?_⟩
  have hlist : (match loadManifest (manifestPath (pluginWith "[]") "/p") (pluginWith "[]") with
      | .ok manifest _ => manifest.fileList?.map List.length
      | .error _ _ => none) = some 0 := by decide +kernel
  rw [hbefore] at hlist
  obtain ⟨files, hfiles, hlength⟩ := Option.map_eq_some_iff.mp hlist
  exact (round.same_iff.mp hsame files hfiles).1 (List.length_eq_zero_iff.mp hlength)

end Project

end PluginWorkshop
