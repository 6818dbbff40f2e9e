import PluginWorkshop.Project.Integration
import PluginWorkshop.Proofs.Machine.Siblings
import PluginWorkshop.Proofs.Project.Resolving

/-!
# The support file

The support file of a project belongs into the directory of its main file
(`Project.target_supportFile`), which is there as long as the main file is
(`Project.missingParents_supportFile`). It is made while the main file is replaced by the planned
text (`Project.add_ideHelper_eq_ok`).
-/

namespace PluginWorkshop.Project

open Os FileTree
open PluginWorkshop.Path (IsName)

variable {root : Path} {machine machine' : Machine} {project : Project}

/-- The path of the support file. -/
def supportFile (project : Project) : Path := Path.join project.root "ide-helper.php"

theorem isName_supportFile : IsName "ide-helper.php" := ⟨by decide, by decide⟩

/-- The main file and the support file are two names behind one slash. -/
theorem exists_front_of_resolve (h : resolve root machine = .ok project machine') :
    IsName (project.slug ++ ".php") ∧ ∃ front,
      project.mainFile = front ++ "/" ++ (project.slug ++ ".php") ∧
      project.supportFile = front ++ "/" ++ "ide-helper.php" := by
  have hslug := fileName?_of_resolve h
  have hname := (Path.isName_of_fileName? hslug).append_extension
  have hroot : project.root ≠ "" := by
    intro hempty
    rw [hempty, show Path.fileName? "" = none by decide] at hslug
    cases hslug
  obtain ⟨front, hfront⟩ := Path.exists_join_eq hroot
  obtain ⟨-, -, -, -, -, hmain, -⟩ := resolve_eq_ok h
  exact ⟨hname, front, hmain.trans (hfront hname), hfront isName_supportFile⟩

variable {now : Machine} {place : Place} {content : ByteArray} {modified : Time}

/-- The support file is looked for in the directory of the main file. -/
theorem target_supportFile (h : resolve root machine = .ok project machine')
    (hlocate : locate now project.mainFile = .ok place)
    (hfile : now.tree.nodeAt place = some (.file content modified)) :
    ∃ directory, place = directory ++ [project.slug ++ ".php"] ∧
      namedPlace now project.supportFile = directory ++ ["ide-helper.php"] ∧
      now.tree.nodeAt directory = some .directory ∧
      target now project.supportFile =
        if project.supportFile.utf8ByteSize < pathBytesLimit then
          .ok (directory, .name "ide-helper.php" false)
        else .error .nameTooLong := by
  obtain ⟨hname, front, hmain, hsupport⟩ := exists_front_of_resolve h
  rw [hmain] at hlocate
  rw [hsupport]
  exact target_join hname isName_supportFile (by decide) (by decide) (by decide) hlocate hfile

theorem missingParents_supportFile (h : resolve root machine = .ok project machine')
    (hlocate : locate now project.mainFile = .ok place) :
    Files.missingParents now project.supportFile = [] := by
  obtain ⟨hname, front, hmain, hsupport⟩ := exists_front_of_resolve h
  rw [hmain] at hlocate
  rw [hsupport]
  exact Files.missingParents_join hname isName_supportFile hlocate

/-- Adding the variable for the plugin object plans on the text of the main file and then writes the
two files. -/
theorem add_ideHelper_eq_ok {installer : Installer} {report : ToggleReport}
    (h : add root .ideHelper installer machine = .ok report machine') :
    ∃ project text outcome mainClass, resolve root machine = .ok project machine ∧
      Files.readText project.mainFile machine = .ok text machine ∧
      bindingLine? text (bindingVariable project.slug) = none ∧
      Php.plan project.mainFile text (.bindInstance (bindingVariable project.slug)) = .ok outcome ∧
      Php.mainInstance project.mainFile text = .ok mainClass ∧
      Files.withNewFile project.supportFile
        (project.helperText mainClass (bindingVariable project.slug))
        (Files.replaceFile project.mainFile outcome.content) machine = .ok () machine' ∧
      report.changes = outcome.changes := by
  obtain ⟨project, _, hresolve, h⟩ := bind_eq_ok.mp h
  obtain ⟨rfl, -⟩ := resolve_eq_ok hresolve
  change project.addBinding .ideHelper "ide-helper.php" machine = _ at h
  rw [addBinding] at h
  obtain ⟨text, _, htext, h⟩ := bind_eq_ok.mp h
  obtain ⟨rfl, -⟩ := readText_eq_ok.mp htext
  split at h
  · exact absurd h throw_bind_ne_ok
  next hfresh =>
  obtain ⟨outcome, _, hplanned, h⟩ := bind_eq_ok.mp h
  obtain ⟨hplan, rfl⟩ := ofExcept_eq_ok.mp hplanned
  obtain ⟨mainClass, _, hclass, h⟩ := bind_eq_ok.mp h
  obtain ⟨hmain, rfl⟩ := ofExcept_eq_ok.mp hclass
  obtain ⟨⟨⟩, _, hfiles, h⟩ := bind_eq_ok.mp h
  obtain ⟨rfl, rfl⟩ := pure_eq_ok.mp h
  exact ⟨project, text, outcome, mainClass, hresolve, htext, by simpa using hfresh, hplan, hmain,
    hfiles, rfl⟩

end PluginWorkshop.Project
