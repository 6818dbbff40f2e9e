import PluginWorkshop.Proofs.Machine.NewFiles

/-!
# New files, kept or undone

A new file is guarded by a record of what was made for it. As long as the guard is not let go, all of
that can be undone; after that the tree differs from the one before in the file and the directories
that were missing for it (`createFile_guards`). Nothing is made over an entry.

The guard knows the paths of the missing directories as they are written. That is enough for a path
that never leads up (`oneBranch_of_notMem`). But an empty directory that was there before may be
removed, if the path leads to it by a way back out of a missing one
(`not_createFile_guards_of_detour`).
-/

namespace PluginWorkshop.Files

open Os FileTree

variable {machine machine' : Machine} {path d : Path} {content : String} {file : NewFile}

/-! ## Missing parents -/

theorem missingParents_of_fileExists (h : fileExists machine path = true) :
    missingParents machine path = [] := by
  rw [missingParents_eq_filter, List.filter_eq_nil_iff]
  intro d hd
  rcases parentsUpTo_of_fileExists _ h hd with rfl | hexists
  · simp [isMissing]
  · simp [isMissing, hexists]

/-- Where a file can be found, so can the directories that were missing for it before. -/
theorem locate_of_mem_missingParents (hcwd : machine'.cwd = machine.cwd)
    (hfile : fileExists machine' path = true) (hd : d ∈ missingParents machine path) :
    locate machine' d = .ok (namedPlace machine d) := by
  rw [missingParents_eq_filter, List.mem_filter] at hd
  obtain ⟨hparent, hmissing⟩ := hd
  rcases parentsUpTo_of_fileExists _ hfile hparent with rfl | hexists
  · simp [isMissing] at hmissing
  · obtain ⟨place, hplace⟩ := fileExists_iff.mp hexists
    rw [hplace, ← namedPlace_congr hcwd, locate_eq_namedPlace hplace]

/-- Pieces other than `..` only lead down. -/
theorem prefix_foldl_namedStep {pieces : List String} (h : ".." ∉ pieces) (here : Place) :
    here <+: pieces.foldl namedStep here := by
  induction pieces generalizing here with
  | nil => exact List.prefix_refl _
  | cons piece pieces ih =>
    obtain ⟨hpiece, hpieces⟩ : ".." ≠ piece ∧ ".." ∉ pieces := by simpa using h
    refine List.IsPrefix.trans ?_ (ih hpieces (namedStep here piece))
    rw [namedStep, if_neg hpiece.symm]
    split_ifs
    · exact List.prefix_refl _
    · exact List.prefix_append _ _

theorem namedPlace_parent (machine : Machine) {parent : Path}
    (hparent : Path.parent? path = some parent) (hne : parent ≠ "") (h : ".." ∉ Path.pieces path) :
    ".." ∉ Path.pieces parent ∧ namedPlace machine parent <+: namedPlace machine path := by
  rcases Path.exists_append_of_parent? hparent hne with ⟨rest, rfl⟩ | ⟨rfl, rest, rfl⟩
  · rw [Path.pieces_append, List.mem_append, not_or] at h
    refine ⟨h.1, ?_⟩
    rw [namedPlace, namedPlace, startOf_append hne, Path.pieces_append, List.foldl_append]
    exact prefix_foldl_namedStep h.2 _
  · have hroot : namedPlace machine "/" = [] := by
      have hstart : startOf machine "/" = [] := startOf_slash_append machine ""
      rw [namedPlace, hstart]
      decide
    exact ⟨by decide, hroot ▸ List.nil_prefix⟩

theorem namedPlace_of_mem_parentsUpTo (n : Nat) (h : ".." ∉ Path.pieces path)
    (hd : d ∈ Path.parentsUpTo n path) :
    d = "" ∨ namedPlace machine d <+: namedPlace machine path := by
  have habove := Path.of_mem_parentsUpTo
    (p := fun d => ".." ∉ Path.pieces d ∧ namedPlace machine d <+: namedPlace machine path)
    (fun hparent hempty hd => ?_) n ⟨h, List.prefix_refl _⟩ hd
  · exact habove.imp id And.right
  · obtain ⟨hpieces, hprefix⟩ := namedPlace_parent machine hparent hempty hd.1
    exact ⟨hpieces, hprefix.trans hd.2⟩

/-- The missing parents of a path that never leads up lie on one branch. -/
theorem oneBranch_of_notMem (h : ".." ∉ Path.pieces path) : OneBranch machine path := by
  have habove : ∀ d ∈ missingParents machine path,
      namedPlace machine d <+: namedPlace machine path := by
    intro d hd
    rw [missingParents_eq_filter, List.mem_filter] at hd
    obtain ⟨hparent, hmissing⟩ := hd
    refine (namedPlace_of_mem_parentsUpTo _ h hparent).resolve_left ?_
    rintro rfl
    simp [isMissing] at hmissing
  exact fun d hd d' hd' => List.prefix_or_prefix_of_prefix (habove d hd) (habove d' hd')

/-! ## The guard -/

theorem Opening.place_eq (opening : Opening machine path) :
    opening.place = namedPlace machine path := by
  have := target_eq_namedPlace opening.target_eq
  exact this

/-- What stands at a place after a file was made: the file where its path says, a directory where a
parent was missing and nothing stood, and elsewhere what stood there before. -/
def nodeWithFile (machine : Machine) (path : Path) (content : String) (q : Place) : Option Node :=
  if q = namedPlace machine path then some (.file content.toUTF8 machine.now)
  else if machine.tree.nodeAt q = none ∧
      ∃ d ∈ missingParents machine path, q = namedPlace machine d then
    some .directory
  else machine.tree.nodeAt q

/-- A new file that was made, and can be kept or undone. -/
structure Guarded (machine : Machine) (path : Path) (content : String) (file : NewFile)
    (machine' : Machine) : Prop where
  path_eq : file.path = path
  free : machine.tree.nodeAt (namedPlace machine path) = none
  locate_path : locate machine' path = .ok (namedPlace machine path)
  locate_parent : ∀ d ∈ missingParents machine path, locate machine' d = .ok (namedPlace machine d)
  nodeAt_eq : ∀ q, machine'.tree.nodeAt q = nodeWithFile machine path content q
  undo_eq : Retraceable machine (missingParents machine path) →
    (after file.undo machine').tree = machine.tree

theorem guarded_of_createFile (h : createFile path content machine = .ok file machine') :
    Guarded machine path content file machine' := by
  obtain ⟨rfl, faults, opening, rfl⟩ := createFile_ok h
  have hplace := opening.place_eq
  have hlocate := opening.locate_tree content.toUTF8 machine.now faults
  have hparent : ∀ d ∈ missingParents machine path,
      locate ((machine.withFaults faults).withTree (opening.tree content.toUTF8 machine.now)) d =
        .ok (namedPlace machine d) := fun d hd =>
    locate_of_mem_missingParents rfl (fileExists_iff.mpr ⟨_, hlocate⟩) hd
  refine ⟨rfl, hplace ▸ opening.nodeAt_place, hplace ▸ hlocate, hparent, fun q => ?_, fun hway => ?_⟩
  · rw [Machine.withTree_tree, opening.nodeAt_tree, nodeWithFile, ← hplace]
    by_cases hq : q = opening.place
    · rw [if_pos hq, if_pos hq]
    · -- The directories that were made are those of the missing parents, which are found now.
      have hmade : (∃ m ∈ opening.made, q = m.place) ↔ machine.tree.nodeAt q = none ∧
          ∃ d ∈ missingParents machine path, q = namedPlace machine d := by
        rw [opening.exists_made_iff content.toUTF8 machine.now hq faults]
        refine and_congr_right fun _ => exists_congr fun d => and_congr_right fun hd => ?_
        rw [hparent d hd, Except.ok.injEq, eq_comm]
      rw [if_neg hq, if_neg hq, if_congr hmade rfl rfl]
  · rw [after_of_ok (undo_tree hway)]
    rfl

/-- Making a file fails and leaves the tree as it was, or succeeds and can be undone, if its missing
parents can be traced back. It fails where something stands already, and what is found there stays. -/
theorem createFile_guards (path : Path) (content : String) (machine : Machine) :
    (machine.tree.nodeAt (namedPlace machine path) ≠ none →
      ∃ e machine', createFile path content machine = .error e machine') ∧
    match createFile path content machine with
    | .error _ machine' =>
      fileExists machine path = true ∨ Retraceable machine (missingParents machine path) →
        machine'.tree = machine.tree
    | .ok file machine' => Guarded machine path content file machine' := by
  cases h : createFile path content machine with
  | error e machine' =>
    refine ⟨fun _ => ⟨e, machine', rfl⟩, fun hway => ?_⟩
    have hway' : Retraceable machine (missingParents machine path) := by
      rcases hway with hexists | hway
      · rw [missingParents_of_fileExists hexists]
        trivial
      · exact hway
    obtain ⟨faults, rfl⟩ := createFile_error hway' h
    rfl
  | ok file machine' =>
    have hguarded := guarded_of_createFile h
    exact ⟨fun hsome => absurd hguarded.free hsome, hguarded⟩

/-- A directory with an empty directory `keep`. -/
def withKeep : Machine := .ofTree (.directory [("keep", .directory [])])

/-- The tree after a file was made and the guard dropped. -/
def afterUndo (path : Path) (machine : Machine) : Option FileTree :=
  match createFile path "x" machine with
  | .ok file machine' => some (after file.undo machine').tree
  | .error _ _ => none

theorem exists_of_afterUndo {tree : FileTree} (h : tree ∈ afterUndo path machine) :
    ∃ file machine', createFile path "x" machine = .ok file machine' ∧
      (after file.undo machine').tree = tree := by
  unfold afterUndo at h
  split at h
  · next file machine' hcreate => exact ⟨file, machine', hcreate, Option.some.inj h⟩
  · cases h

/-- A way back to a directory that is missing as well is no obstacle, but an entry is one. -/
theorem createFile_guards_beside :
    (Retraceable withKeep (missingParents withKeep "/src/../lib/f") ∧
      missingParents withKeep "/src/../lib/f" = ["/src/../lib", "/src/..", "/src"] ∧
      ∃ file machine', createFile "/src/../lib/f" "x" withKeep = .ok file machine' ∧
        (after file.undo machine').tree = withKeep.tree) ∧
    withKeep.tree.nodeAt (namedPlace withKeep "/keep") ≠ none ∧
      ∃ e machine', createFile "/keep" "x" withKeep = .error e machine' ∧
        machine'.tree = withKeep.tree := by
  constructor
  · have hway : Retraceable withKeep (missingParents withKeep "/src/../lib/f") := by decide
    have hmade : (afterUndo "/src/../lib/f" withKeep).isSome = true := by decide
    obtain ⟨tree, htree⟩ := Option.isSome_iff_exists.mp hmade
    obtain ⟨file, machine', hcreate, -⟩ := exists_of_afterUndo htree
    have hguards := (createFile_guards "/src/../lib/f" "x" withKeep).2
    rw [hcreate] at hguards
    exact ⟨hway, by decide, file, machine', hcreate, hguards.undo_eq hway⟩
  · have hthere : withKeep.tree.nodeAt (namedPlace withKeep "/keep") ≠ none :=
      Option.isSome_iff_ne_none.mp (by decide)
    obtain ⟨hfails, hguards⟩ := createFile_guards "/keep" "x" withKeep
    obtain ⟨e, machine', hcreate⟩ := hfails hthere
    rw [hcreate] at hguards
    exact ⟨hthere, e, machine', hcreate, hguards (Or.inl (by decide))⟩

/-- Dropping the guard removes an empty directory that was there before. -/
theorem not_createFile_guards_of_detour : ∃ file machine',
    createFile "/new/../keep/f" "x" withKeep = .ok file machine' ∧
      withKeep.tree.nodeAt ["keep"] = some .directory ∧
      (after file.undo machine').tree.nodeAt ["keep"] = none := by
  have hgone : (afterUndo "/new/../keep/f" withKeep).map
      (fun tree => (tree.nodeAt ["keep"]).isSome) = some false := by
    decide +kernel
  obtain ⟨tree, htree, hnone⟩ := Option.map_eq_some_iff.mp hgone
  obtain ⟨file, machine', hcreate, rfl⟩ := exists_of_afterUndo htree
  exact ⟨file, machine', hcreate, rfl, by simpa using hnone⟩

end PluginWorkshop.Files
