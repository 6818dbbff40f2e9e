import PluginWorkshop.Project.Integration
import PluginWorkshop.Proofs.Machine.Removing
import PluginWorkshop.Proofs.Php.Bindings
import PluginWorkshop.Proofs.Project.Making
import PluginWorkshop.Proofs.Project.SupportFile

/-!
# Removing the variable for the plugin object

Taking the variable away changes the main file first and removes the support file then. Nothing is
taken back if the support file cannot be removed, and the support file of a plugin with the slug
`ide-helper` is its main file (`remove_ideHelper_cases`).
-/

namespace PluginWorkshop.Project

open Os FileTree

variable {root : Path} {machine machine' : Machine} {project : Project} {place : Place}

/-- The assignment in the main file of the project at a root, and the edit that takes it off. -/
structure Detaching (root : Path) (machine : Machine) where
  project : Project
  text : String
  outcome : Php.PatchOutcome
  resolve_eq : resolve root machine = .ok project machine
  text_eq : Files.readText project.mainFile machine = .ok text machine
  plan_eq : Php.plan project.mainFile text
    (.unbindInstance (bindingVariable project.slug)) = .ok outcome

namespace Detaching

variable (d : Detaching root machine)

def mainPlace : Place := namedPlace machine d.project.mainFile

def supportPlace : Place := namedPlace machine d.project.supportFile

/-- The main file as the edit leaves it. -/
def planned : Node := .file d.outcome.content.toUTF8 machine.now

/-- The system refuses to remove the support file: there is a directory, or the path is too long. -/
def Refused : Prop :=
  machine.tree.nodeAt d.supportPlace = some .directory ∨
    pathBytesLimit ≤ d.project.supportFile.utf8ByteSize

theorem exists_mainFile : ∃ bytes modified,
    locate machine d.project.mainFile = .ok d.mainPlace ∧
      machine.tree.nodeAt d.mainPlace = some (.file bytes modified) := by
  obtain ⟨-, bytes, modified, hentry, -⟩ := readText_eq_ok.mp d.text_eq
  obtain ⟨place, hlocate, hget⟩ := entryAt_eq_ok.mp hentry
  obtain rfl := locate_eq_namedPlace hlocate
  exact ⟨bytes, modified, hlocate, nodeAt_eq_file.mpr hget⟩

/-- Only a plugin with the slug `ide-helper` has its main file where the support file would be. -/
theorem mainPlace_eq_supportPlace_iff :
    d.mainPlace = d.supportPlace ↔ d.project.slug = "ide-helper" := by
  obtain ⟨bytes, modified, hlocate, hfile⟩ := d.exists_mainFile
  obtain ⟨directory, hmain, hsupport, -, -⟩ := target_supportFile d.resolve_eq hlocate hfile
  rw [hmain, supportPlace, hsupport, List.append_right_inj, List.singleton_inj,
    show "ide-helper.php" = "ide-helper" ++ ".php" by decide, String.append_left_inj]

/-- Taking the assignment off is a change. -/
theorem isUnchanged_eq : d.outcome.isUnchanged = false := by
  obtain ⟨index, line, -, -, heq⟩ := Php.plan_unbindInstance_eq_ok.mp d.plan_eq
  rw [heq]
  rfl

/-- Once the main file is written, the support file is removed or the system refuses to. -/
theorem removeIfExists_supportFile {edited : Machine} (hshape : SameShape machine.tree edited.tree)
    (hcwd : edited.cwd = machine.cwd) (hdistinct : edited.tree.Distinct) :
    match Files.removeIfExists d.project.supportFile edited with
    | .error e machine' => machine' = edited ∧ d.Refused ∧
        ∃ cause, e = .writeFailed d.project.supportFile cause
    | .ok _ machine' => ¬ d.Refused ∧ ∀ q, machine'.tree.nodeAt q =
        if q = d.supportPlace then none else edited.tree.nodeAt q := by
  obtain ⟨bytes, modified, hlocate, hfile⟩ := d.exists_mainFile
  obtain ⟨bytes', modified', hfile'⟩ := hshape.file hfile
  rw [locate_congr hshape hcwd.symm] at hlocate
  obtain ⟨directory, -, hsupport, -, htarget⟩ := target_supportFile d.resolve_eq hlocate hfile'
  have hplace : d.supportPlace = directory ++ ["ide-helper.php"] := by
    rw [← hsupport, supportPlace, namedPlace, namedPlace, startOf, startOf, hcwd]
  have hrefused : d.Refused ↔ edited.tree.nodeAt d.supportPlace = some .directory ∨
      pathBytesLimit ≤ d.project.supportFile.utf8ByteSize :=
    or_congr hshape.directory_iff Iff.rfl
  rw [hrefused, hplace]
  split_ifs at htarget with hlimit
  · rw [Files.removeIfExists_of_target htarget]
    cases hnode : edited.tree.nodeAt (directory ++ ["ide-helper.php"]) with
    | none =>
      refine ⟨by simp; omega, fun q => ?_⟩
      split_ifs with hq
      · rw [hq, hnode]
      · rfl
    | some node =>
      cases node with
      | directory => exact ⟨rfl, Or.inl rfl, _, rfl⟩
      | file content time =>
        exact ⟨by simp; omega, nodeAt_remove_file hdistinct hnode⟩
  · rw [Files.removeIfExists_of_target_eq_error htarget (by decide)]
    exact ⟨rfl, Or.inr (by omega), _, rfl⟩

end Detaching

theorem applyEdit_distinct {path : Path} {edit : Php.BootstrapEdit} {outcome : Php.PatchOutcome}
    (h : Php.applyEdit path edit machine = .ok outcome machine') (hdistinct : machine.tree.Distinct) :
    machine'.tree.Distinct := by
  rw [Php.applyEdit] at h
  obtain ⟨text, _, hread, h⟩ := bind_eq_ok.mp h
  obtain ⟨rfl, -⟩ := readText_eq_ok.mp hread
  obtain ⟨outcome', _, hplanned, h⟩ := bind_eq_ok.mp h
  obtain ⟨-, rfl⟩ := ofExcept_eq_ok.mp hplanned
  split at h
  · obtain ⟨_, _, hreplace, h⟩ := bind_eq_ok.mp h
    obtain ⟨-, rfl⟩ := pure_eq_ok.mp h
    rw [Files.replaceFile, orFail_eq_ok, replaceFile_eq] at hreplace
    obtain ⟨place, name, faults, -, -, rfl⟩ := putText_ok hreplace
    exact hdistinct.put (.file _ _)
  · obtain ⟨-, rfl⟩ := pure_eq_ok.mp h
    exact hdistinct

/-- Once the main file is edited, it alone has changed. -/
theorem exists_detaching {edited : Machine} {outcome : Php.PatchOutcome}
    (hresolve : resolve root machine = .ok project machine) (hdistinct : machine.tree.Distinct)
    (h : Php.applyEdit project.mainFile (.unbindInstance (bindingVariable project.slug)) machine =
      .ok outcome edited) :
    ∃ d : Detaching root machine, d.project = project ∧ SameShape machine.tree edited.tree ∧
      edited.cwd = machine.cwd ∧ edited.tree.Distinct ∧ ∀ q, edited.tree.nodeAt q =
        if q = d.mainPlace then some d.planned else machine.tree.nodeAt q := by
  obtain ⟨bytes, modified, text, place, hlocate, hfile, htext, hplan, hshape, hcwd, hnodes⟩ :=
    Php.applyEdit_ok h
  obtain rfl := locate_eq_namedPlace hlocate
  have hread : Files.readText project.mainFile machine = .ok text machine :=
    readText_eq_ok.mpr ⟨rfl, bytes, modified,
      entryAt_eq_ok.mpr ⟨_, hlocate, nodeAt_eq_file.mp hfile⟩, htext⟩
  let d : Detaching root machine := ⟨project, text, outcome, hresolve, hread, hplan⟩
  refine ⟨d, rfl, hshape, hcwd, applyEdit_distinct h hdistinct, fun q => ?_⟩
  have hchanged : outcome.isUnchanged = false := d.isUnchanged_eq
  rw [hnodes, hchanged]
  simp only [and_true]
  rfl

/-- Removing the variable fails and leaves the files as they were, or the support file is gone, the
main file holds the planned text unless it was the support file, and all else is as it was. Only if
the system refuses to remove the support file, the main file is written all the same. -/
theorem remove_ideHelper_cases (root : Path) (installer : Installer) (machine : Machine)
    (hdistinct : machine.tree.Distinct) :
    match remove root .ideHelper installer machine with
    | .error e machine' => machine'.tree = machine.tree ∨ ∃ d : Detaching root machine,
        d.Refused ∧ (∃ cause, e = .writeFailed d.project.supportFile cause) ∧
        ∀ q, machine'.tree.nodeAt q =
          if q = d.mainPlace then some d.planned else machine.tree.nodeAt q
    | .ok _ machine' => ∃ d : Detaching root machine,
        ¬ d.Refused ∧ (d.mainPlace = d.supportPlace ↔ d.project.slug = "ide-helper") ∧
        ∀ q, machine'.tree.nodeAt q =
          if q = d.supportPlace then none
          else if q = d.mainPlace then some d.planned
          else machine.tree.nodeAt q := by
  split
  · next e machine' h =>
    rcases bind_eq_error.mp h with h | ⟨project, _, hresolve, h⟩
    · rw [(onlyLooks_resolve root).of_error h]
      exact Or.inl rfl
    obtain ⟨rfl, -⟩ := resolve_eq_ok hresolve
    change project.removeBinding .ideHelper "ide-helper.php" machine = _ at h
    rw [removeBinding] at h
    rcases bind_eq_error.mp h with h | ⟨text, _, htext, h⟩
    · rw [(onlyLooks_readText _).of_error h]
      exact Or.inl rfl
    obtain ⟨rfl, -⟩ := readText_eq_ok.mp htext
    split at h
    · cases h
      exact Or.inl rfl
    rcases bind_eq_error.mp h with h | ⟨outcome, edited, hedit, h⟩
    · obtain ⟨faults, rfl⟩ := Php.applyEdit_error h
      exact Or.inl rfl
    obtain ⟨d, rfl, hshape, hcwd, hdistinct', hnodes⟩ := exists_detaching hresolve hdistinct hedit
    have hremove := d.removeIfExists_supportFile hshape hcwd hdistinct'
    rcases bind_eq_error.mp h with h | ⟨_, _, -, h⟩
    · change Files.removeIfExists d.project.supportFile edited = _ at h
      rw [h] at hremove
      obtain ⟨rfl, hrefused, hcause⟩ := hremove
      exact Or.inr ⟨d, hrefused, hcause, hnodes⟩
    · cases h
  · next report machine' h =>
    obtain ⟨project, _, hresolve, h⟩ := bind_eq_ok.mp h
    obtain ⟨rfl, -⟩ := resolve_eq_ok hresolve
    change project.removeBinding .ideHelper "ide-helper.php" machine = _ at h
    rw [removeBinding] at h
    obtain ⟨text, _, htext, h⟩ := bind_eq_ok.mp h
    obtain ⟨rfl, -⟩ := readText_eq_ok.mp htext
    split at h
    · exact absurd h throw_bind_ne_ok
    obtain ⟨outcome, edited, hedit, h⟩ := bind_eq_ok.mp h
    obtain ⟨d, rfl, hshape, hcwd, hdistinct', hnodes⟩ := exists_detaching hresolve hdistinct hedit
    have hremove := d.removeIfExists_supportFile hshape hcwd hdistinct'
    obtain ⟨removed, machine₁, hremoved, h⟩ := bind_eq_ok.mp h
    obtain ⟨-, rfl⟩ := pure_eq_ok.mp h
    change Files.removeIfExists d.project.supportFile edited = _ at hremoved
    rw [hremoved] at hremove
    obtain ⟨hallowed, hgone⟩ := hremove
    refine ⟨d, hallowed, d.mainPlace_eq_supportPlace_iff, fun q => ?_⟩
    rw [hgone, hnodes]

/-- A small plugin of this slug with a main file that assigns the plugin object, and something more
in its directory. -/
def pluginAssigning (slug variableName : String) (others : Entries) : Machine :=
  .ofTree <| .directory [(slug, .directory <|
    ("composer.json", .file ("\x7b\"require\":\x7b\"mehrshaddarzi/wp-trait\":1\x7d," ++
      "\"autoload\":\x7b\"psr-4\":\x7b\"P\":\"\"\x7d\x7d\x7d").toUTF8 0) ::
    (slug ++ ".php", .file ("<?php\n$" ++ variableName ++ " = new Plugin();\n").toUTF8 0) ::
    others)]

/-- The text of the file at a place. -/
def textAt (tree : FileTree) (place : Place) : Option String :=
  match tree.get? place with
  | some (.file content _) => String.fromUTF8? content
  | _ => none

/-- Whether the variable can be removed, and the text at a place afterwards. -/
def afterRemoval (root : Path) (place : Place) (machine : Machine) : Bool × Option String :=
  match remove root .ideHelper .skip machine with
  | .ok _ machine' => (true, textAt machine'.tree place)
  | .error _ machine' => (false, textAt machine'.tree place)

theorem exists_ok_of_afterRemoval {text : Option String}
    (h : afterRemoval root place machine = (true, text)) : ∃ report machine',
      remove root .ideHelper .skip machine = .ok report machine' ∧
        textAt machine'.tree place = text := by
  unfold afterRemoval at h
  split at h
  · next report machine' hremove => exact ⟨report, machine', hremove, (Prod.mk.inj h).2⟩
  · simp at h

theorem exists_error_of_afterRemoval {text : Option String}
    (h : afterRemoval root place machine = (false, text)) : ∃ e machine',
      remove root .ideHelper .skip machine = .error e machine' ∧
        textAt machine'.tree place = text := by
  unfold afterRemoval at h
  split at h
  · simp at h
  · next e machine' hremove => exact ⟨e, machine', hremove, (Prod.mk.inj h).2⟩

/-- Beside a support file all is removed. -/
theorem remove_ideHelper_cases_supportFile :
    let machine := pluginAssigning "p" "p" [("ide-helper.php", .file .empty 0)]
    machine.tree.Distinct ∧ ∃ report machine',
      remove "/p" .ideHelper .skip machine = .ok report machine' ∧
      ∃ d : Detaching "/p" machine,
        ¬ d.Refused ∧ (d.mainPlace = d.supportPlace ↔ d.project.slug = "ide-helper") ∧
        ∀ q, machine'.tree.nodeAt q =
          if q = d.supportPlace then none
          else if q = d.mainPlace then some d.planned
          else machine.tree.nodeAt q := by
  intro machine
  have hdistinct : machine.tree.Distinct := by
    refine .directory (by decide) ?_
    simp only [List.mem_singleton, forall_eq]
    refine .directory (by decide) ?_
    simp only [List.forall_mem_cons, List.not_mem_nil, false_imp_iff, implies_true, and_true]
    exact ⟨.file _ _, .file _ _, .file _ _⟩
  have hremoved : afterRemoval "/p" ["p", "p.php"] machine = (true, some "<?php\nnew Plugin();\n") := by
    decide +kernel
  obtain ⟨report, machine', hremove, -⟩ := exists_ok_of_afterRemoval hremoved
  have hcases := remove_ideHelper_cases "/p" .skip machine hdistinct
  rw [hremove] at hcases
  exact ⟨hdistinct, report, machine', hremove, hcases⟩

/-- Where a directory stands in place of the support file the main file is written although nothing
is removed, and in a plugin with the slug `ide-helper` the main file itself is removed. -/
theorem not_remove_ideHelper_all_or_nothing :
    (∃ e machine', remove "/p" .ideHelper .skip
        (pluginAssigning "p" "p" [("ide-helper.php", .directory [])]) = .error e machine' ∧
      machine'.tree ≠ (pluginAssigning "p" "p" [("ide-helper.php", .directory [])]).tree) ∧
    ∃ report machine', remove "/ide-helper" .ideHelper .skip
        (pluginAssigning "ide-helper" "ide_helper" []) = .ok report machine' ∧
      textAt machine'.tree ["ide-helper", "ide-helper.php"] = none := by
  have hwritten : afterRemoval "/p" ["p", "p.php"]
      (pluginAssigning "p" "p" [("ide-helper.php", .directory [])]) =
        (false, some "<?php\nnew Plugin();\n") := by
    decide +kernel
  have hgone : afterRemoval "/ide-helper" ["ide-helper", "ide-helper.php"]
      (pluginAssigning "ide-helper" "ide_helper" []) = (true, none) := by
    decide +kernel
  obtain ⟨e, machine', hremove, htext⟩ := exists_error_of_afterRemoval hwritten
  refine ⟨⟨e, machine', hremove, fun htree => ?_⟩, exists_ok_of_afterRemoval hgone⟩
  have hbefore : textAt (pluginAssigning "p" "p" [("ide-helper.php", .directory [])]).tree
      ["p", "p.php"] = some "<?php\n$p = new Plugin();\n" := by
    decide +kernel
  rw [htree, hbefore] at htext
  exact absurd htext (by decide)

end PluginWorkshop.Project
