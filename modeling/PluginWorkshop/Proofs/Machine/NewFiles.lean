import PluginWorkshop.Proofs.Machine.Directories

/-!
# New files

A new file is made with its missing parents or not at all, and what follows it may still fail: then
it is gone again with the directories made for it (`withNewFile_error`), if the way down to it can be
traced back (`Retraceable`).
-/

namespace PluginWorkshop.Files

open Os FileTree

variable {machine machine' : Machine} {made : List Made} {path : Path} {content : String}

/-! ## Missing parents -/

theorem parentsUpTo_of_fileExists {d : Path} (n : Nat) (h : fileExists machine path = true)
    (hd : d ∈ Path.parentsUpTo n path) : d = "" ∨ fileExists machine d = true := by
  refine Path.of_mem_parentsUpTo (p := fun d => fileExists machine d = true)
    (fun hparent hempty hexists => ?_) n h hd
  obtain ⟨place, hplace⟩ := fileExists_iff.mp hexists
  exact fileExists_iff.mpr (locate_parent hparent hempty hplace)

/-- A parent has to be made. -/
def isMissing (machine : Machine) (parent : Path) : Bool :=
  !parent.isEmpty && !fileExists machine parent

/-- Above a parent that is there, no parent is missing. -/
theorem missingParents_eq_filter (machine : Machine) (path : Path) :
    missingParents machine path = (Path.parents path).filter (isMissing machine) := by
  change (Path.parents path).takeWhile (isMissing machine) = _
  rw [Path.parents]
  induction (Path.pieces path).length generalizing path with
  | zero => rfl
  | succ n ih =>
    rw [Path.parentsUpTo]
    cases Path.parent? path with
    | none => rfl
    | some parent =>
      dsimp only
      by_cases hmissing : isMissing machine parent = true
      · rw [List.takeWhile_cons_of_pos hmissing, List.filter_cons_of_pos hmissing, ih]
      · rw [List.takeWhile_cons_of_neg hmissing, List.filter_cons_of_neg hmissing, eq_comm,
          List.filter_eq_nil_iff]
        intro d hd
        by_cases hempty : parent = ""
        · simp [hempty, Path.parentsUpTo_empty] at hd
        · have hexists : fileExists machine parent = true := by
            simpa [isMissing, hempty] using hmissing
          rcases parentsUpTo_of_fileExists n hexists hd with rfl | hd
          · simp [isMissing]
          · simp [isMissing, hd]

theorem of_mem_missingParents {d : Path} (h : d ∈ missingParents machine path) :
    fileExists machine d = false := by
  rw [missingParents_eq_filter, List.mem_filter] at h
  simpa using (Bool.and_eq_true_iff.mp h.2).2

/-- However it ends, making the parents of a file has made some that were missing. -/
theorem makeDirectoryAll_after {parent : Path} (hparent : Path.parent? path = some parent) :
    ∃ faults made, after (makeDirectoryAll parent) machine =
      (machine.withFaults faults).withTree (build machine.tree made) ∧
    Makeable machine made ∧ (made.map Made.path).Sublist (missingParents machine path) := by
  rw [makeDirectoryAll]
  split_ifs with hempty
  · exact ⟨machine.faults, [], rfl, trivial, List.nil_sublist _⟩
  obtain ⟨faults, made, hafter, hmade, hsub⟩ := makeDirectories_after machine
    (parent :: (Path.parents parent).filter (!·.isEmpty))
  refine ⟨faults, made, hafter, hmade, ?_⟩
  have hparents : (made.map Made.path).Sublist (Path.parents path) :=
    (hsub.trans (List.filter_sublist.cons_cons parent)).trans
      (Path.cons_parents_prefix hparent).sublist
  have hself : made.map Made.path = (made.map Made.path).filter (isMissing machine) := by
    rw [eq_comm, List.filter_eq_self]
    intro d hd
    obtain ⟨m, hm, rfl⟩ := List.mem_map.mp hd
    obtain ⟨hne, hmissing, -⟩ := hmade.of_mem hm
    simp [isMissing, hne, hmissing]
  rw [hself, missingParents_eq_filter]
  exact hparents.filter _

/-! ## Undoing -/

section OrUndo

variable {α : Type} {operation : Action α} {undo : Action Unit}

theorem orUndo_eq_ok {a : α} :
    orUndo operation undo machine = .ok a machine' ↔ operation machine = .ok a machine' := by
  rw [orUndo, tryCatch_apply]
  cases operation machine with
  | ok b machine₁ => rfl
  | error e machine₁ =>
    refine iff_of_false ?_ (by simp)
    intro h
    obtain ⟨_, _, _, h⟩ := bind_eq_ok.mp h
    exact throw_ne_ok h

theorem orUndo_eq_error {e : PluginError}
    (h : orUndo operation undo machine = .error e machine') :
    ∃ e₁ machine₁, operation machine = .error e₁ machine₁ ∧ machine' = after undo machine₁ := by
  rw [orUndo, tryCatch_apply] at h
  cases hoperation : operation machine with
  | ok b machine₁ => simp [hoperation] at h
  | error e₁ machine₁ =>
    rw [hoperation] at h
    refine ⟨e₁, machine₁, rfl, ?_⟩
    rcases bind_eq_error.mp h with h | ⟨_, machine₂, hundo, h⟩
    · exact (after_of_error h).symm
    · cases h
      exact (after_of_ok hundo).symm

end OrUndo

/-! ## Making the file -/

/-- A place for a file in a directory that is there after some of its missing parents were made. -/
structure Opening (machine : Machine) (path : Path) where
  made : List Made
  parent : Place
  name : String
  makeable : Makeable machine made
  missing : (made.map Made.path).Sublist (missingParents machine path)
  target_eq : target (machine.withTree (build machine.tree made)) path = .ok (parent, .name name false)
  free : (build machine.tree made).nodeAt (parent ++ [name]) = none

namespace Opening

/-- The place of the file. -/
def place (opening : Opening machine path) : Place := opening.parent ++ [opening.name]

/-- The tree with the file. -/
def tree (opening : Opening machine path) (bytes : ByteArray) (modified : Time) : FileTree :=
  (build machine.tree opening.made).put opening.parent opening.name (.file bytes modified)

variable (opening : Opening machine path) (bytes : ByteArray) (modified : Time)

theorem parent_isDirectory :
    (build machine.tree opening.made).nodeAt opening.parent = some .directory := by
  have := target_isDirectory opening.target_eq (by simp)
  exact this

theorem extends_tree : Extends (build machine.tree opening.made) (opening.tree bytes modified) :=
  extends_put opening.parent_isDirectory opening.free rfl

theorem target_tree (faults : List (Option OsError)) :
    target ((machine.withFaults faults).withTree (opening.tree bytes modified)) path =
      .ok (opening.parent, .name opening.name false) := by
  have := target_withTree_of_extends (opening.extends_tree bytes modified) opening.target_eq
  exact this

theorem get?_tree :
    (opening.tree bytes modified).get? opening.place = some (.file bytes modified) :=
  get?_put_self opening.parent_isDirectory

theorem locate_tree (faults : List (Option OsError)) :
    locate ((machine.withFaults faults).withTree (opening.tree bytes modified)) path =
      .ok opening.place := by
  refine locate_of_target (opening.target_tree bytes modified faults) (Or.inl ⟨rfl, ?_⟩)
  have hfile := nodeAt_eq_file.mpr (opening.get?_tree bytes modified)
  change (opening.tree bytes modified).nodeAt opening.place ≠ none
  simp [hfile]

theorem put_tree (bytes' : ByteArray) (modified' : Time) :
    (opening.tree bytes modified).put opening.parent opening.name (.file bytes' modified') =
      opening.tree bytes' modified' :=
  put_put _ _ _

theorem remove_tree : (opening.tree bytes modified).remove opening.parent opening.name =
    build machine.tree opening.made :=
  remove_put (nodeAt_eq_none.mp opening.free) _

theorem nodeAt_tree (q : Place) : (opening.tree bytes modified).nodeAt q =
    if q = opening.place then some (.file bytes modified)
    else if ∃ m ∈ opening.made, q = m.place then some .directory
    else machine.tree.nodeAt q := by
  rw [tree, nodeAt_put opening.parent_isDirectory (by rw [opening.free]; simp) rfl,
    nodeAt_build opening.makeable]
  rfl

theorem nodeAt_place : machine.tree.nodeAt opening.place = none := by
  by_contra hsome
  obtain ⟨node, hnode⟩ := Option.ne_none_iff_exists'.mp hsome
  obtain ⟨node', hnode', -⟩ := extends_build opening.makeable hnode
  simp [place, opening.free] at hnode'

/-- What was there before is there still. -/
theorem nodeAt_tree_of_eq_some {q : Place} {node : Node} (h : machine.tree.nodeAt q = some node) :
    (opening.tree bytes modified).nodeAt q = some node := by
  rw [nodeAt_tree, if_neg, if_neg, h]
  · rintro ⟨m, hm, rfl⟩
    simp [opening.makeable.nodeAt_place hm] at h
  · rintro rfl
    simp [opening.nodeAt_place] at h

/-- What was found before is found still. -/
theorem locate_tree_of_eq_ok {p : Path} {q : Place} (h : locate machine p = .ok q)
    (faults : List (Option OsError)) :
    locate ((machine.withFaults faults).withTree (opening.tree bytes modified)) p = .ok q := by
  have := locate_withTree_of_extends
    ((extends_build opening.makeable).trans (opening.extends_tree bytes modified)) h
  exact this

/-- The directories that were made are the missing parents where there was nothing. -/
theorem exists_made_iff {q : Place} (hq : q ≠ opening.place) (faults : List (Option OsError)) :
    (∃ m ∈ opening.made, q = m.place) ↔ machine.tree.nodeAt q = none ∧
      ∃ d ∈ missingParents machine path,
        locate ((machine.withFaults faults).withTree (opening.tree bytes modified)) d = .ok q := by
  constructor
  · rintro ⟨m, hm, rfl⟩
    refine ⟨opening.makeable.nodeAt_place hm, m.path,
      opening.missing.subset (List.mem_map_of_mem hm), ?_⟩
    have := locate_withTree_of_extends (opening.extends_tree bytes modified)
      (opening.makeable.locate hm)
    exact this
  · rintro ⟨hnone, d, -, hlocate⟩
    have hsome := nodeAt_of_locate hlocate
    rw [Machine.withTree_tree, nodeAt_tree, if_neg hq, hnone] at hsome
    by_contra hmade
    exact hsome (if_neg hmade)

end Opening

/-- The first part of `openNew`. -/
def makeParents (path : Path) : Action Unit :=
  match Path.parent? path with
  | some parent => (makeDirectoryAll parent).orFail (.writeFailed path)
  | none => pure ()

theorem openNew_eq (path : Path) : openNew path = (makeParents path >>= fun _ =>
    (Os.createFile path).orFail fun e =>
      if e = .alreadyExists then .targetExists path else .writeFailed path e) := by
  rw [openNew, makeParents]
  cases Path.parent? path <;> rfl

theorem makeParents_after (machine : Machine) (path : Path) :
    ∃ faults made, after (makeParents path) machine =
      (machine.withFaults faults).withTree (build machine.tree made) ∧
    Makeable machine made ∧ (made.map Made.path).Sublist (missingParents machine path) := by
  rw [makeParents]
  cases hparent : Path.parent? path with
  | none => exact ⟨machine.faults, [], rfl, trivial, List.nil_sublist _⟩
  | some parent =>
    rw [after_orFail]
    exact makeDirectoryAll_after hparent

theorem openNew_ok (h : openNew path machine = .ok () machine') :
    ∃ (faults : List (Option OsError)) (opening : Opening machine path),
      machine' = (machine.withFaults faults).withTree (opening.tree .empty machine.now) := by
  rw [openNew_eq] at h
  obtain ⟨_, machine₁, hparents, h⟩ := bind_eq_ok.mp h
  obtain ⟨faults, made, hafter, hmade, hsub⟩ := makeParents_after machine path
  obtain rfl := (after_of_ok hparents).symm.trans hafter
  obtain ⟨parent, name, faults', htarget, hfree, rfl⟩ := createFile_ok (orFail_eq_ok.mp h)
  exact ⟨faults', ⟨made, parent, name, hmade, hsub, htarget, hfree⟩, rfl⟩

/-- If a file cannot be made, some of its missing parents may have been. -/
theorem openNew_error {e : PluginError} (h : openNew path machine = .error e machine') :
    ∃ faults made, machine' = (machine.withFaults faults).withTree (build machine.tree made) ∧
      Makeable machine made ∧ (made.map Made.path).Sublist (missingParents machine path) := by
  rw [openNew_eq] at h
  obtain ⟨faults, made, hafter, hmade, hsub⟩ := makeParents_after machine path
  rcases bind_eq_error.mp h with h | ⟨_, machine₁, hparents, h⟩
  · exact ⟨faults, made, (after_of_error h).symm.trans hafter, hmade, hsub⟩
  · obtain rfl := (after_of_ok hparents).symm.trans hafter
    obtain ⟨e', h⟩ := orFail_eq_error.mp h
    obtain ⟨faults', rfl⟩ := createFile_error h.1
    exact ⟨faults', made, rfl, hmade, hsub⟩

variable {opening : Opening machine path} {bytes : ByteArray} {modified : Time}
  {faults : List (Option OsError)}

theorem writeFile_tree (h : writeFile path content
      ((machine.withFaults faults).withTree (opening.tree bytes modified)) = .ok () machine') :
    ∃ faults', machine' = (machine.withFaults faults').withTree
      (opening.tree content.toUTF8 machine.now) := by
  rw [writeFile_eq] at h
  obtain ⟨parent, name, faults', htarget, -, rfl⟩ := putText_ok h
  obtain ⟨rfl, rfl⟩ : opening.parent = parent ∧ opening.name = name := by
    simpa [opening.target_tree] using htarget
  exact ⟨faults', by simp [opening.put_tree]⟩

theorem fillNew_ok (h : fillNew path content
      ((machine.withFaults faults).withTree (opening.tree bytes modified)) = .ok () machine') :
    ∃ faults', machine' = (machine.withFaults faults').withTree
      (opening.tree content.toUTF8 machine.now) := by
  rw [fillNew, orFail_eq_ok] at h
  obtain ⟨_, machine₁, hwrite, hsync⟩ := bind_eq_ok.mp h
  obtain ⟨faults', rfl⟩ := writeFile_tree hwrite
  obtain ⟨faults'', h | ⟨e, h⟩⟩ := syncFile_cases
    ((machine.withFaults faults').withTree (opening.tree content.toUTF8 machine.now))
  · rw [h] at hsync
    cases hsync
    exact ⟨faults'', rfl⟩
  · rw [h] at hsync
    cases hsync

theorem fillNew_error {e : PluginError} (h : fillNew path content
      ((machine.withFaults faults).withTree (opening.tree bytes modified)) = .error e machine') :
    ∃ faults' bytes' modified',
      machine' = (machine.withFaults faults').withTree (opening.tree bytes' modified') := by
  rw [fillNew, orFail_eq_error] at h
  obtain ⟨e', h, -⟩ := h
  rcases bind_eq_error.mp h with hwrite | ⟨_, machine₁, hwrite, hsync⟩
  · rw [writeFile_eq] at hwrite
    obtain ⟨faults', rfl⟩ := putText_error hwrite
    exact ⟨faults', bytes, modified, rfl⟩
  · obtain ⟨faults', rfl⟩ := writeFile_tree hwrite
    obtain ⟨faults'', h | ⟨e, h⟩⟩ := syncFile_cases
      ((machine.withFaults faults').withTree (opening.tree content.toUTF8 machine.now))
    · rw [h] at hsync
      cases hsync
    · rw [h] at hsync
      cases hsync
      exact ⟨faults'', content.toUTF8, machine.now, rfl⟩

/-! ## All or nothing -/

variable {made : List Made}

theorem removeDirectories_missingParents
    (hway : Retraceable machine (missingParents machine path)) (hmade : Makeable machine made)
    (hsub : (made.map Made.path).Sublist (missingParents machine path)) :
    removeDirectories (missingParents machine path)
      ((machine.withFaults faults).withTree (build machine.tree made)) =
        .ok () (machine.withFaults faults) := by
  have hmade' : Makeable (machine.withFaults faults) made := makeable_withFaults.mpr hmade
  exact removeDirectories_build (fun d hd => of_mem_missingParents hd)
    (retraceable_withFaults.mpr hway) hmade' hsub

/-- Undoing the file takes the directories back that were made for it. -/
theorem undo_tree (hway : Retraceable machine (missingParents machine path)) :
    NewFile.undo ⟨path, missingParents machine path⟩
      ((machine.withFaults faults).withTree (opening.tree bytes modified)) =
        .ok () (machine.withFaults faults) := by
  refine bind_eq_ok.mpr ⟨(), (machine.withFaults faults).withTree (build machine.tree opening.made),
    ?_, removeDirectories_missingParents hway opening.makeable opening.missing⟩
  rw [ignoringErrors,
    removeFile_of_target (opening.target_tree bytes modified faults), Machine.withTree_tree,
    ← Opening.place, opening.get?_tree]
  simp [opening.remove_tree]

/-- A file that cannot be made leaves the tree as it was. -/
theorem createFile_error {e : PluginError}
    (hway : Retraceable machine (missingParents machine path))
    (h : createFile path content machine = .error e machine') :
    ∃ faults, machine' = machine.withFaults faults := by
  rw [createFile, get_bind] at h
  rcases bind_eq_error.mp h with h | ⟨_, machine₁, hopen, h⟩
  · obtain ⟨e₁, machine₁, hopen, rfl⟩ := orUndo_eq_error h
    obtain ⟨faults, made, rfl, hmade, hsub⟩ := openNew_error hopen
    exact ⟨faults, after_of_ok (removeDirectories_missingParents hway hmade hsub)⟩
  obtain ⟨faults, opening, rfl⟩ := openNew_ok (orUndo_eq_ok.mp hopen)
  rcases bind_eq_error.mp h with h | ⟨_, machine₁, -, h⟩
  · obtain ⟨e₁, machine₁, hfill, rfl⟩ := orUndo_eq_error h
    obtain ⟨faults', bytes, modified, rfl⟩ := fillNew_error hfill
    exact ⟨faults', after_of_ok (undo_tree hway)⟩
  · cases h

/-- A file that was made stands in the tree with its content, below its missing parents. -/
theorem createFile_ok {file : NewFile} (h : createFile path content machine = .ok file machine') :
    file = ⟨path, missingParents machine path⟩ ∧
      ∃ (faults : List (Option OsError)) (opening : Opening machine path),
        machine' =
          (machine.withFaults faults).withTree (opening.tree content.toUTF8 machine.now) := by
  rw [createFile, get_bind] at h
  obtain ⟨_, machine₁, hopen, h⟩ := bind_eq_ok.mp h
  obtain ⟨faults, opening, rfl⟩ := openNew_ok (orUndo_eq_ok.mp hopen)
  obtain ⟨_, machine₂, hfill, h⟩ := bind_eq_ok.mp h
  obtain ⟨faults', rfl⟩ := fillNew_ok (orUndo_eq_ok.mp hfill)
  obtain ⟨rfl, rfl⟩ := pure_eq_ok.mp h
  exact ⟨rfl, faults', opening, rfl⟩

/-- A file that is not replaced leaves the tree alone. -/
theorem replaceFile_error {e : PluginError}
    (h : Files.replaceFile path content machine = .error e machine') :
    ∃ faults, machine' = machine.withFaults faults := by
  rw [Files.replaceFile, orFail_eq_error] at h
  obtain ⟨e', h, -⟩ := h
  exact putText_error h

variable {α : Type} {next : Action α}

/-- If what follows a new file fails and leaves the tree alone, all is as it was. -/
theorem withNewFile_error {e : PluginError}
    (hway : Retraceable machine (missingParents machine path))
    (hnext : ∀ {machine e machine'}, next machine = .error e machine' →
      ∃ faults, machine' = machine.withFaults faults)
    (h : withNewFile path content next machine = .error e machine') :
    ∃ faults, machine' = machine.withFaults faults := by
  rw [withNewFile] at h
  rcases bind_eq_error.mp h with h | ⟨file, machine₁, hfile, h⟩
  · exact createFile_error hway h
  obtain ⟨rfl, faults, opening, rfl⟩ := createFile_ok hfile
  obtain ⟨e₁, machine₂, hfail, rfl⟩ := orUndo_eq_error h
  obtain ⟨faults', rfl⟩ := hnext hfail
  exact ⟨faults', after_of_ok (undo_tree hway)⟩

theorem withNewFile_ok {a : α} (h : withNewFile path content next machine = .ok a machine') :
    ∃ (faults : List (Option OsError)) (opening : Opening machine path),
      next ((machine.withFaults faults).withTree (opening.tree content.toUTF8 machine.now)) =
        .ok a machine' := by
  rw [withNewFile] at h
  obtain ⟨file, machine₁, hfile, h⟩ := bind_eq_ok.mp h
  obtain ⟨rfl, faults, opening, rfl⟩ := createFile_ok hfile
  exact ⟨faults, opening, orUndo_eq_ok.mp h⟩

end PluginWorkshop.Files
