import PluginWorkshop.Project.Make
import PluginWorkshop.Proofs.Machine.NewFiles
import PluginWorkshop.Proofs.Project.Resolving

/-!
# Making a class, all or nothing
-/

namespace PluginWorkshop

open Os FileTree

variable {machine machine' : Machine} {path : Path}

namespace Php

/-- An edit that fails leaves the file as it was. -/
theorem applyEdit_error {edit : BootstrapEdit} {e : PluginError}
    (h : applyEdit path edit machine = .error e machine') :
    ∃ faults, machine' = machine.withFaults faults := by
  rw [applyEdit] at h
  rcases bind_eq_error.mp h with h | ⟨text, machine₁, hread, h⟩
  · exact ⟨machine.faults, (Project.onlyLooks_readText path).of_error h⟩
  obtain ⟨rfl, -⟩ := Project.readText_eq_ok.mp hread
  rcases bind_eq_error.mp h with h | ⟨outcome, machine₂, hplan, h⟩
  · exact ⟨machine.faults, (onlyLooks_ofExcept _).of_error h⟩
  obtain ⟨-, rfl⟩ := ofExcept_eq_ok.mp hplan
  split at h
  · rcases bind_eq_error.mp h with h | ⟨_, machine₃, -, h⟩
    · exact Files.replaceFile_error h
    · cases h
  · cases h

/-- An edit that is carried out leaves the file with the planned text, and all else as it was. -/
theorem applyEdit_ok {edit : BootstrapEdit} {outcome : PatchOutcome}
    (h : applyEdit path edit machine = .ok outcome machine') :
    ∃ bytes modified text place, locate machine path = .ok place ∧
      machine.tree.nodeAt place = some (.file bytes modified) ∧
      String.fromUTF8? bytes = some text ∧ plan path text edit = .ok outcome ∧
      SameShape machine.tree machine'.tree ∧ machine'.cwd = machine.cwd ∧
      ∀ q, machine'.tree.nodeAt q =
        if q = place ∧ outcome.isUnchanged = false then
          some (.file outcome.content.toUTF8 machine.now)
        else machine.tree.nodeAt q := by
  rw [applyEdit] at h
  obtain ⟨text, _, hread, h⟩ := bind_eq_ok.mp h
  obtain ⟨rfl, bytes, modified, hfile, htext⟩ := Project.readText_eq_ok.mp hread
  obtain ⟨outcome', _, hplanned, h⟩ := bind_eq_ok.mp h
  obtain ⟨hplan, rfl⟩ := ofExcept_eq_ok.mp hplanned
  obtain ⟨place, hlocate, hget⟩ := entryAt_eq_ok.mp hfile
  split at h
  · next hchanged =>
    obtain ⟨_, _, hreplace, h⟩ := bind_eq_ok.mp h
    obtain ⟨rfl, rfl⟩ := pure_eq_ok.mp h
    rw [Files.replaceFile, orFail_eq_ok] at hreplace
    obtain ⟨-, hshape, hcwd, place', hlocate', hnodes⟩ := replaceFile_of_entryAt hfile hreplace
    obtain rfl : place = place' := Except.ok.inj (hlocate.symm.trans hlocate')
    refine ⟨bytes, modified, text, place, hlocate, nodeAt_eq_file.mpr hget, htext, hplan, hshape,
      hcwd, ?_⟩
    have hchanged' : outcome'.isUnchanged = false := by simpa using hchanged
    simpa [hchanged'] using hnodes
  · next hunchanged =>
    obtain ⟨rfl, rfl⟩ := pure_eq_ok.mp h
    refine ⟨bytes, modified, text, place, hlocate, nodeAt_eq_file.mpr hget, htext, hplan,
      fun _ => rfl, rfl, ?_⟩
    have hunchanged' : outcome'.isUnchanged = true := by simpa using hunchanged
    simp [hunchanged']

end Php

namespace Project

/-- The class that is requested, in its place in the project at a root. -/
def placement (root : Path) (request : ClassRequest) (machine : Machine) : Option PlacedClass :=
  match resolve root machine with
  | .ok project _ => (ClassSpec.ofRequest request).toOption.map (·.place project.mapping)
  | .error _ _ => none

theorem placement_eq {root : Path} {request : ClassRequest} {project : Project} {spec : ClassSpec}
    (hresolve : resolve root machine = .ok project machine')
    (hspec : ClassSpec.ofRequest request = .ok spec) :
    placement root request machine = some (spec.place project.mapping) := by
  unfold placement
  rw [hresolve]
  simp only [hspec, Except.toOption, Option.map]

/-- What stands at a place after a class was made: its file, the new text of the main file, a
directory that was missing for it, and elsewhere what stood there before. -/
def nodeAfter (machine machine' : Machine) (placed : PlacedClass) (outcome : Php.PatchOutcome)
    (classPlace mainPlace q : Place) : Option Node :=
  if q = classPlace then some (.file placed.content.toUTF8 machine.now)
  else if q = mainPlace ∧ outcome.isUnchanged = false then
    some (.file outcome.content.toUTF8 machine.now)
  else if machine.tree.nodeAt q = none ∧
      ∃ d ∈ Files.missingParents machine placed.file, locate machine' d = .ok q then
    some .directory
  else machine.tree.nodeAt q

variable {root : Path} {request : ClassRequest}

theorem placeNew_ok {project : Project} {spec : ClassSpec} {placed : PlacedClass}
    (h : project.placeNew spec machine = .ok placed machine') :
    machine = machine' ∧ placed = spec.place project.mapping ∧
      fileExists machine placed.file = false := by
  rw [placeNew, get_bind] at h
  split at h
  · exact absurd h throw_bind_ne_ok
  next hfree =>
  obtain ⟨rfl, rfl⟩ := pure_eq_ok.mp h
  exact ⟨rfl, rfl, by simpa using hfree⟩

theorem onlyLooks_placeNew (project : Project) (spec : ClassSpec) :
    OnlyLooks (project.placeNew spec) := by
  rw [placeNew]
  refine onlyLooks_get.bind fun machine => ?_
  split
  · exact onlyLooks_throw _
  · exact onlyLooks_pure _

/-- A class made in the project at a root: the edit that was planned on the text of the main file,
and the files before and after. -/
structure Making (root : Path) (request : ClassRequest) (machine machine' : Machine) where
  project : Project
  placed : PlacedClass
  statement : String
  bytes : ByteArray
  modified : Time
  text : String
  outcome : Php.PatchOutcome
  classPlace : Place
  mainPlace : Place
  resolve_eq : resolve root machine = .ok project machine
  placement_eq : placement root request machine = some placed
  instantiation_eq : placed.instantiation project.textDomain = some statement
  locate_mainFile : locate machine project.mainFile = .ok mainPlace
  nodeAt_mainPlace : machine.tree.nodeAt mainPlace = some (.file bytes modified)
  text_eq : String.fromUTF8? bytes = some text
  plan_eq : Php.plan project.mainFile text
    (.wireClass placed.propertyDeclaration statement) = .ok outcome
  nodeAt_classPlace : machine.tree.nodeAt classPlace = none
  locate_file : locate machine' placed.file = .ok classPlace
  nodeAt_eq : ∀ q, machine'.tree.nodeAt q =
    nodeAfter machine machine' placed outcome classPlace mainPlace q

/-- Making a class makes its file while the main file is edited. -/
theorem make_eq_ok {report : MakeReport} (h : make root request machine = .ok report machine') :
    ∃ project placed statement outcome, resolve root machine = .ok project machine ∧
      placement root request machine = some placed ∧
      placed.instantiation project.textDomain = some statement ∧
      Files.withNewFile placed.file placed.content (Php.applyEdit project.mainFile
        (.wireClass placed.propertyDeclaration statement)) machine = .ok outcome machine' := by
  rw [make] at h
  obtain ⟨project, _, hresolve, h⟩ := bind_eq_ok.mp h
  obtain ⟨rfl, -⟩ := resolve_eq_ok hresolve
  obtain ⟨spec, _, hrequest, h⟩ := bind_eq_ok.mp h
  obtain ⟨hspec, rfl⟩ := ofExcept_eq_ok.mp hrequest
  obtain ⟨placed, _, hplaced, h⟩ := bind_eq_ok.mp h
  obtain ⟨rfl, rfl, -⟩ := placeNew_ok hplaced
  have hplacement := placement_eq hresolve hspec
  generalize spec.place project.mapping = placed at h hplacement
  cases hstatement : placed.instantiation project.textDomain with
  | none =>
    rw [hstatement] at h
    exact absurd h throw_ne_ok
  | some statement =>
    rw [hstatement] at h
    obtain ⟨outcome, _, hnew, h⟩ := bind_eq_ok.mp h
    obtain ⟨rfl, rfl⟩ := pure_eq_ok.mp h
    exact ⟨project, placed, statement, outcome, hresolve, hplacement, hstatement, hnew⟩

theorem make_ok {report : MakeReport} (h : make root request machine = .ok report machine') :
    Nonempty (Making root request machine machine') := by
  obtain ⟨project, placed, statement, outcome, hresolve, hplacement, hstatement, hnew⟩ := make_eq_ok h
  obtain ⟨-, -, -, -, -, -, hmain, -⟩ := resolve_eq_ok hresolve
  obtain ⟨faults, opening, hedit⟩ := Files.withNewFile_ok hnew
  obtain ⟨bytes, modified, text, mainPlace, hlocate, hnode, htext, hplan, hshape, hcwd, hnodes⟩ :=
    Php.applyEdit_ok hedit
  -- The main file was there before the class file was made, and still reads the same.
  obtain ⟨content, time, hfile⟩ := isFile_iff.mp hmain
  obtain ⟨place, hbefore, hget⟩ := entryAt_eq_ok.mp hfile
  obtain rfl : place = mainPlace :=
    Except.ok.inj ((opening.locate_tree_of_eq_ok _ _ hbefore faults).symm.trans hlocate)
  have hkept := opening.nodeAt_tree_of_eq_some placed.content.toUTF8 machine.now
    (nodeAt_eq_file.mpr hget)
  rw [Machine.withTree_tree, hkept] at hnode
  refine ⟨⟨project, placed, statement, bytes, modified, text, outcome, opening.place, place,
    hresolve, hplacement, hstatement, hbefore, ?_, htext, hplan, opening.nodeAt_place, ?_, ?_⟩⟩
  · rw [nodeAt_eq_file.mpr hget, hnode]
  · rw [← locate_congr hshape hcwd.symm]
    exact opening.locate_tree _ _ faults
  · intro q
    rw [hnodes, nodeAfter, Machine.withTree_tree, opening.nodeAt_tree]
    simp only [← locate_congr hshape hcwd.symm]
    by_cases hclass : q = opening.place
    · have hother : q ≠ place := by
        rintro rfl
        have hnone := opening.nodeAt_place
        rw [← hclass, nodeAt_eq_none, hget] at hnone
        cases hnone
      rw [if_neg fun h => hother h.1, if_pos hclass, if_pos hclass]
    · rw [if_neg hclass, if_neg hclass,
        if_congr (opening.exists_made_iff placed.content.toUTF8 machine.now hclass faults) rfl rfl]
      rfl

theorem make_error {e : PluginError} (h : make root request machine = .error e machine')
    (hbranch : ∀ placed, placement root request machine = some placed →
      Files.OneBranch machine placed.file) : ∃ faults, machine' = machine.withFaults faults := by
  rw [make] at h
  rcases bind_eq_error.mp h with h | ⟨project, _, hresolve, h⟩
  · exact ⟨machine.faults, (onlyLooks_resolve root).of_error h⟩
  obtain ⟨rfl, -⟩ := resolve_eq_ok hresolve
  rcases bind_eq_error.mp h with h | ⟨spec, _, hrequest, h⟩
  · exact ⟨machine.faults, (onlyLooks_ofExcept _).of_error h⟩
  obtain ⟨hspec, rfl⟩ := ofExcept_eq_ok.mp hrequest
  rcases bind_eq_error.mp h with h | ⟨placed, _, hplaced, h⟩
  · exact ⟨machine.faults, (onlyLooks_placeNew project spec).of_error h⟩
  obtain ⟨rfl, rfl, -⟩ := placeNew_ok hplaced
  have hplacement := placement_eq hresolve hspec
  generalize spec.place project.mapping = placed at h hplacement
  cases hstatement : placed.instantiation project.textDomain with
  | none =>
    rw [hstatement] at h
    exact ⟨machine.faults, (onlyLooks_throw _).of_error h⟩
  | some statement =>
    rw [hstatement] at h
    rcases bind_eq_error.mp h with h | ⟨_, _, -, h⟩
    · exact Files.withNewFile_error (hbranch _ hplacement).retraceable Php.applyEdit_error h
    · cases h

/-- Making a class fails and leaves the files as they were, or succeeds and leaves the class file, the
directories that were missing for it and the planned main file, and all else as it was. -/
theorem make_all_or_nothing (root : Path) (request : ClassRequest) (machine : Machine)
    (hbranch : ∀ placed ∈ placement root request machine, Files.OneBranch machine placed.file) :
    match make root request machine with
    | .error _ machine' => machine'.tree = machine.tree
    | .ok _ machine' => Nonempty (Making root request machine machine') := by
  split
  · next e machine' h =>
    obtain ⟨faults, rfl⟩ := make_error h fun placed hplaced => hbranch placed hplaced
    rfl
  · next report machine' h => exact make_ok h

/-- A small plugin in the directory `p` with an empty directory `p/keep`, and the namespace `P` in a
directory. -/
def pluginIn (directory : String) : Machine :=
  .ofTree <| .directory [("p", .directory [
    ("composer.json", .file ("\x7b\"require\":\x7b\"mehrshaddarzi/wp-trait\":1\x7d," ++
      "\"autoload\":\x7b\"psr-4\":\x7b\"P\":\"" ++ directory ++ "\"\x7d\x7d\x7d").toUTF8 0),
    ("p.php", .file .empty 0),
    ("keep", .directory [])])]

/-- A request for the model `M`. -/
def modelRequest : ClassRequest := ⟨.model, "M", none, none, none⟩

/-- What making a class leaves behind where it fails. -/
def afterFailure (machine : Machine) : Option FileTree :=
  match make "/p" modelRequest machine with
  | .error _ machine' => some machine'.tree
  | .ok _ _ => none

theorem exists_of_afterFailure {tree : FileTree} (h : tree ∈ afterFailure machine) :
    ∃ e machine', make "/p" modelRequest machine = .error e machine' ∧ machine'.tree = tree := by
  unfold afterFailure at h
  split at h
  · next e machine' hmake => exact ⟨e, machine', hmake, Option.some.inj h⟩
  · cases h

/-- On a full disk the two directories and the file are taken back. -/
theorem make_all_or_nothing_full_disk :
    let machine := (pluginIn "a/b").withFaults [none, none, none, none, some .noSpace]
    (∀ placed ∈ placement "/p" modelRequest machine, Files.OneBranch machine placed.file) ∧
      ∃ e machine', make "/p" modelRequest machine = .error e machine' ∧
        machine'.tree = machine.tree := by
  intro machine
  have hbranch : ∀ placed ∈ placement "/p" modelRequest machine,
      Files.OneBranch machine placed.file := by
    decide +kernel
  have hfails : (afterFailure machine).isSome = true := by decide +kernel
  obtain ⟨tree, htree⟩ := Option.isSome_iff_exists.mp hfails
  obtain ⟨e, machine', hmake, -⟩ := exists_of_afterFailure htree
  have hnothing := make_all_or_nothing "/p" modelRequest machine hbranch
  rw [hmake] at hnothing
  exact ⟨hbranch, e, machine', hmake, hnothing⟩

/-- A way back out of a missing directory makes an empty directory go. -/
theorem not_make_all_or_nothing_of_detour : ∃ e machine',
    make "/p" modelRequest (pluginIn "new/../keep") = .error e machine' ∧
      (pluginIn "new/../keep").tree.nodeAt ["p", "keep"] = some .directory ∧
      machine'.tree.nodeAt ["p", "keep"] = none := by
  have hgone : (afterFailure (pluginIn "new/../keep")).map
      (fun tree => (tree.nodeAt ["p", "keep"]).isSome) = some false := by
    decide +kernel
  obtain ⟨tree, htree, hnone⟩ := Option.map_eq_some_iff.mp hgone
  obtain ⟨e, machine', hmake, rfl⟩ := exists_of_afterFailure htree
  exact ⟨e, machine', hmake, rfl, by simpa using hnone⟩

end Project

end PluginWorkshop
