import PluginWorkshop.Proofs.Machine.Walking

/-!
# What the operations do

The operations look for the directory and the name that a path leads to, and act on these
(`onTarget`). Of each there is one lemma that says what it has done when it succeeds
(`makeDirectory_ok` and so on); when it fails, it has changed nothing but the faults to come
(`writing_error`).
-/

namespace PluginWorkshop

namespace Machine

/-- The machine with other faults to come. -/
def withFaults (machine : Machine) (faults : List (Option OsError)) : Machine :=
  { machine with faults }

/-- The machine with another tree. -/
def withTree (machine : Machine) (tree : FileTree) : Machine := { machine with tree }

variable (machine : Machine) (faults : List (Option OsError)) (tree : FileTree)

@[simp] theorem withFaults_tree : (machine.withFaults faults).tree = machine.tree := rfl

@[simp] theorem withFaults_cwd : (machine.withFaults faults).cwd = machine.cwd := rfl

@[simp] theorem withFaults_now : (machine.withFaults faults).now = machine.now := rfl

@[simp] theorem withFaults_calls : (machine.withFaults faults).calls = machine.calls := rfl

@[simp] theorem withTree_tree : (machine.withTree tree).tree = tree := rfl

@[simp] theorem withTree_cwd : (machine.withTree tree).cwd = machine.cwd := rfl

@[simp] theorem withTree_now : (machine.withTree tree).now = machine.now := rfl

@[simp] theorem withTree_calls : (machine.withTree tree).calls = machine.calls := rfl

@[simp] theorem withTree_withTree (tree' : FileTree) :
    (machine.withTree tree).withTree tree' = machine.withTree tree' := rfl

@[simp] theorem withFaults_withFaults (faults' : List (Option OsError)) :
    (machine.withFaults faults).withFaults faults' = machine.withFaults faults' := rfl

@[simp] theorem withTree_withFaults :
    (machine.withTree tree).withFaults faults = (machine.withFaults faults).withTree tree := rfl

@[simp] theorem withTree_self : machine.withTree machine.tree = machine := rfl

end Machine

namespace Os

variable {machine machine' : Machine} {path : Path} {content : String}

@[simp] theorem target_withFaults (faults : List (Option OsError)) (path : Path) :
    target (machine.withFaults faults) path = target machine path := rfl

theorem modifyTree_eq_ok {change : FileTree → FileTree} :
    modifyTree change machine = .ok () machine' ↔
      machine' = machine.withTree (change machine.tree) := by
  change EStateM.Result.ok _ _ = _ ↔ _
  simp [Machine.withTree, eq_comm]

/-! ## Acting on the entry that a path names -/

/-- What all the operations have in common: they look for the directory and the name that a path
leads to, and act on these. -/
def onTarget (path : Path) (act : Place → String → Bool → Os Unit) (otherwise : OsError) :
    Os Unit := do
  match ← look (target · path) with
  | (place, .name name slash) => act place name slash
  | _ => throw otherwise

section OnTarget

variable {act : Place → String → Bool → Os Unit} {otherwise : OsError}

theorem onTarget_of_target {place : Place} {name : String} {slash : Bool}
    (htarget : target machine path = .ok (place, .name name slash)) :
    onTarget path act otherwise machine = act place name slash machine := by
  rw [onTarget, look_bind_of_ok htarget]

theorem onTarget_eq_ok (h : onTarget path act otherwise machine = .ok () machine') :
    ∃ place name slash, target machine path = .ok (place, .name name slash) ∧
      act place name slash machine = .ok () machine' := by
  obtain ⟨⟨place, last⟩, htarget, h⟩ := look_bind_eq_ok.mp h
  cases last with
  | name name slash => exact ⟨place, name, slash, htarget, h⟩
  | _ => simp at h

end OnTarget

theorem makeDirectory_eq (path : Path) : makeDirectory path = writing (onTarget path
    (fun place name _ => do
      if ((← get).tree.get? (place ++ [name])).isSome then throw .alreadyExists
      modifyTree (·.put place name (.directory []))) .alreadyExists) := rfl

theorem createFile_eq (path : Path) : createFile path = writing (onTarget path
    (fun place name slash => do
      if slash then throw .isADirectory
      if ((← get).tree.get? (place ++ [name])).isSome then throw .alreadyExists
      modifyTree (·.put place name (.file .empty (← get).now))) .alreadyExists) := rfl

theorem removeFile_eq (path : Path) : removeFile path = onTarget path
    (fun place name slash => do
      match (← get).tree.get? (place ++ [name]) with
      | none => throw .notFound
      | some (.directory _) => throw .isADirectory
      | some (.file _ _) =>
        if slash then throw .notADirectory
        modifyTree (·.remove place name)) .isADirectory := rfl

theorem removeDirectory_eq (path : Path) : removeDirectory path = onTarget path
    (fun place name _ => do
      match (← get).tree.get? (place ++ [name]) with
      | none => throw .notFound
      | some (.file _ _) => throw .notADirectory
      | some (.directory (_ :: _)) => throw .directoryNotEmpty
      | some (.directory []) => modifyTree (·.remove place name)) .directoryNotEmpty := rfl

/-- What writing and replacing have in common; they differ in the error for a slash at the end. -/
def putText (slashError : OsError) (path : Path) (content : String) : Os Unit := do
  match ← look (target · path) with
  | (place, .name name slash) =>
    if slash then throw slashError
    match (← get).tree.get? (place ++ [name]) with
    | some (.directory _) => throw .isADirectory
    | _ => modifyTree (·.put place name (.file content.toUTF8 (← get).now))
  | _ => throw .isADirectory

theorem putText_eq (slashError : OsError) (path : Path) (content : String) :
    putText slashError path content = onTarget path (fun place name slash => do
      if slash then throw slashError
      match (← get).tree.get? (place ++ [name]) with
      | some (.directory _) => throw .isADirectory
      | _ => modifyTree (·.put place name (.file content.toUTF8 (← get).now))) .isADirectory := rfl

theorem replaceFile_eq (path : Path) (content : String) :
    replaceFile path content = writing (putText .notADirectory path content) := rfl

theorem writeFile_eq (path : Path) (content : String) :
    writeFile path content = writing (putText .isADirectory path content) := rfl

/-! ## Success -/

theorem putText_ok {slashError : OsError}
    (h : writing (putText slashError path content) machine = .ok () machine') :
    ∃ place name faults, target machine path = .ok (place, .name name false) ∧
      machine.tree.nodeAt (place ++ [name]) ≠ some .directory ∧
      machine' = (machine.withFaults faults).withTree
        (machine.tree.put place name (.file content.toUTF8 machine.now)) := by
  obtain ⟨faults, h⟩ := writing_eq_ok h
  rw [putText_eq] at h
  obtain ⟨place, name, slash, htarget, h⟩ := onTarget_eq_ok h
  cases slash with
  | true => simp at h
  | false =>
    simp only [Bool.false_eq_true, if_false, get_bind] at h
    match hget : machine.tree.get? (place ++ [name]), h with
    | some (.directory _), h => simp at h
    | none, h | some (.file _ _), h =>
      exact ⟨place, name, faults, htarget, by simp [FileTree.nodeAt, hget, FileTree.node],
        modifyTree_eq_ok.mp h⟩

theorem createFile_ok (h : createFile path machine = .ok () machine') :
    ∃ place name faults, target machine path = .ok (place, .name name false) ∧
      machine.tree.nodeAt (place ++ [name]) = none ∧
      machine' = (machine.withFaults faults).withTree
        (machine.tree.put place name (.file .empty machine.now)) := by
  rw [createFile_eq] at h
  obtain ⟨faults, h⟩ := writing_eq_ok h
  obtain ⟨place, name, slash, htarget, h⟩ := onTarget_eq_ok h
  cases slash with
  | true => simp at h
  | false =>
    simp only [Bool.false_eq_true, if_false, get_bind] at h
    match hget : machine.tree.get? (place ++ [name]), h with
    | some _, h => simp at h
    | none, h =>
      exact ⟨place, name, faults, htarget, FileTree.nodeAt_eq_none.mpr hget,
        modifyTree_eq_ok.mp h⟩

theorem makeDirectory_ok (h : makeDirectory path machine = .ok () machine') :
    ∃ place name slash faults, target machine path = .ok (place, .name name slash) ∧
      machine.tree.nodeAt (place ++ [name]) = none ∧
      machine' = (machine.withFaults faults).withTree
        (machine.tree.put place name (.directory [])) := by
  rw [makeDirectory_eq] at h
  obtain ⟨faults, h⟩ := writing_eq_ok h
  obtain ⟨place, name, slash, htarget, h⟩ := onTarget_eq_ok h
  rw [get_bind] at h
  match hget : machine.tree.get? (place ++ [name]), h with
  | some _, h => simp at h
  | none, h =>
    exact ⟨place, name, slash, faults, htarget, FileTree.nodeAt_eq_none.mpr hget,
      modifyTree_eq_ok.mp h⟩

theorem removeDirectory_ok (h : removeDirectory path machine = .ok () machine') :
    ∃ place name slash, target machine path = .ok (place, .name name slash) ∧
      machine.tree.get? (place ++ [name]) = some (.directory []) ∧
      machine' = machine.withTree (machine.tree.remove place name) := by
  rw [removeDirectory_eq] at h
  obtain ⟨place, name, slash, htarget, h⟩ := onTarget_eq_ok h
  rw [get_bind] at h
  match hget : machine.tree.get? (place ++ [name]), h with
  | none, h | some (.file _ _), h | some (.directory (_ :: _)), h => simp at h
  | some (.directory []), h => exact ⟨place, name, slash, htarget, hget, modifyTree_eq_ok.mp h⟩

/-- Removing takes away a file and nothing else. -/
theorem removeFile_of_target {place : Place} {name : String}
    (htarget : target machine path = .ok (place, .name name false)) :
    removeFile path machine = match machine.tree.get? (place ++ [name]) with
      | none => .error .notFound machine
      | some (.directory _) => .error .isADirectory machine
      | some (.file _ _) => .ok () (machine.withTree (machine.tree.remove place name)) := by
  rw [removeFile_eq, onTarget_of_target htarget, get_bind]
  cases machine.tree.get? (place ++ [name]) with
  | none => rfl
  | some entry => cases entry <;> rfl

theorem removeDirectory_of_target {place : Place} {name : String} {slash : Bool}
    (htarget : target machine path = .ok (place, .name name slash))
    (hget : machine.tree.get? (place ++ [name]) = some (.directory [])) :
    removeDirectory path machine = .ok () (machine.withTree (machine.tree.remove place name)) := by
  rw [removeDirectory_eq, onTarget_of_target htarget, get_bind, hget]
  rfl

/-- Replacing a file that is there changes what it holds and nothing else. -/
theorem replaceFile_of_entryAt {old : ByteArray} {modified : Time}
    (hfile : entryAt machine path = .ok (.file old modified))
    (h : replaceFile path content machine = .ok () machine') :
    entryAt machine' path = .ok (.file content.toUTF8 machine.now) ∧
      SameShape machine.tree machine'.tree ∧ machine'.cwd = machine.cwd ∧
      ∃ place, locate machine path = .ok place ∧ ∀ q, machine'.tree.nodeAt q =
        if q = place then some (.file content.toUTF8 machine.now) else machine.tree.nodeAt q := by
  obtain ⟨place, hpath, hget⟩ := entryAt_eq_ok.mp hfile
  have hnode := FileTree.nodeAt_eq_file.mpr hget
  obtain ⟨directory, name, faults, htarget, -, hmachine⟩ := putText_ok h
  obtain ⟨directory', name', htarget', rfl, hdir⟩ := target_of_locate hpath hnode
  obtain ⟨rfl, rfl⟩ : directory' = directory ∧ name' = name := by
    simpa [htarget'] using htarget
  have htree : machine'.tree =
      machine.tree.put directory' name' (.file content.toUTF8 machine.now) := by
    rw [hmachine, Machine.withTree_tree]
  have hcwd : machine'.cwd = machine.cwd := by rw [hmachine]; rfl
  have hshape : SameShape machine.tree machine'.tree := htree ▸ sameShape_put hdir hnode
  have hnodes : ∀ q, machine'.tree.nodeAt q =
      if q = directory' ++ [name'] then some (.file content.toUTF8 machine.now)
      else machine.tree.nodeAt q := by
    rw [htree]
    exact FileTree.nodeAt_put hdir (by simp [hnode]) rfl
  refine ⟨?_, hshape, hcwd, _, hpath, hnodes⟩
  refine entryAt_eq_ok.mpr ⟨directory' ++ [name'], ?_, FileTree.nodeAt_eq_file.mp ?_⟩
  · rw [← locate_congr hshape hcwd.symm path, hpath]
  · exact (hnodes _).trans (if_pos rfl)

/-- Where nothing fails, text can be put where there is no directory. -/
theorem putText_of_target {slashError : OsError} {place : Place} {name : String}
    (htarget : target machine path = .ok (place, .name name false))
    (hnode : machine.tree.nodeAt (place ++ [name]) ≠ some .directory)
    (hfaults : machine.faults = []) (content : String) :
    writing (putText slashError path content) machine = .ok () (machine.withTree
      (machine.tree.put place name (.file content.toUTF8 machine.now))) := by
  rw [writing, hfaults, putText_eq]
  refine (onTarget_of_target htarget).trans ?_
  simp only [Bool.false_eq_true, if_false, get_bind]
  cases hget : machine.tree.get? (place ++ [name]) with
  | none => rfl
  | some entry =>
    cases entry with
    | file old modified => rfl
    | directory entries => exact absurd (FileTree.nodeAt_eq_directory.mpr ⟨entries, hget⟩) hnode

/-- Where nothing fails, text can be put into a file that is there. -/
theorem exists_putText {slashError : OsError} {old : ByteArray} {modified : Time}
    (hfile : entryAt machine path = .ok (.file old modified)) (hfaults : machine.faults = [])
    (content : String) :
    ∃ machine', writing (putText slashError path content) machine = .ok () machine' ∧
      machine'.faults = [] := by
  obtain ⟨place, hpath, hget⟩ := entryAt_eq_ok.mp hfile
  have hnode := FileTree.nodeAt_eq_file.mpr hget
  obtain ⟨directory, name, htarget, rfl, -⟩ := target_of_locate hpath hnode
  exact ⟨_, putText_of_target htarget (by simp [hnode]) hfaults content, hfaults⟩

theorem exists_replaceFile {old : ByteArray} {modified : Time}
    (hfile : entryAt machine path = .ok (.file old modified)) (hfaults : machine.faults = [])
    (content : String) :
    ∃ machine', replaceFile path content machine = .ok () machine' ∧ machine'.faults = [] :=
  exists_putText hfile hfaults content

theorem exists_writeFile {old : ByteArray} {modified : Time}
    (hfile : entryAt machine path = .ok (.file old modified)) (hfaults : machine.faults = [])
    (content : String) :
    ∃ machine', writeFile path content machine = .ok () machine' ∧ machine'.faults = [] :=
  exists_putText hfile hfaults content

theorem writeFile_of_target {place : Place} {name : String}
    (htarget : target machine path = .ok (place, .name name false))
    (hnode : machine.tree.nodeAt (place ++ [name]) ≠ some .directory)
    (hfaults : machine.faults = []) (content : String) :
    writeFile path content machine = .ok () (machine.withTree
      (machine.tree.put place name (.file content.toUTF8 machine.now))) :=
  putText_of_target htarget hnode hfaults content

/-! ## Failure -/

/-- An operation that changes nothing if it fails. -/
def KeepsOnError (operation : Os α) : Prop :=
  ∀ ⦃machine e machine'⦄, operation machine = .error e machine' → machine' = machine

theorem keepsOnError_look (f : Machine → Except OsError α) : KeepsOnError (look f) := by
  intro machine e machine' h
  rw [look] at h
  split at h <;> cases h
  rfl

theorem keepsOnError_get : KeepsOnError (get : Os Machine) := by
  intro machine e machine' h
  cases h

theorem keepsOnError_throw (e : OsError) : KeepsOnError (throw e : Os α) := by
  intro machine e' machine' h
  cases h
  rfl

theorem keepsOnError_modifyTree (change : FileTree → FileTree) :
    KeepsOnError (modifyTree change) := by
  intro machine e machine' h
  cases h

theorem KeepsOnError.bind {x : Os α} {f : α → Os β} (hx : KeepsOnError x)
    (hlooks : ∀ machine a machine', x machine = .ok a machine' → machine' = machine)
    (hf : ∀ a, KeepsOnError (f a)) : KeepsOnError (x >>= f) := by
  intro machine e machine' h
  rcases bind_eq_error.mp h with h | ⟨a, machine₁, hx', h⟩
  · exact hx h
  · rw [hf a h, hlooks _ _ _ hx']

theorem writing_error {operation : Os α} (hoperation : KeepsOnError operation) {e : OsError}
    (h : writing operation machine = .error e machine') :
    ∃ faults, machine' = machine.withFaults faults := by
  rw [writing] at h
  split at h
  · exact ⟨machine.faults, hoperation h⟩
  · exact ⟨_, hoperation h⟩
  · next faults _ =>
    cases h
    exact ⟨faults, rfl⟩

theorem KeepsOnError.look_bind {f : Machine → Except OsError α} {g : α → Os β}
    (hg : ∀ a, KeepsOnError (g a)) : KeepsOnError (look f >>= g) :=
  (keepsOnError_look f).bind (fun _ _ _ h => (look_eq_ok.mp h).2.symm) hg

theorem KeepsOnError.get_bind {g : Machine → Os β} (hg : ∀ a, KeepsOnError (g a)) :
    KeepsOnError (get >>= g) :=
  keepsOnError_get.bind (fun _ _ _ h => (get_eq_ok.mp h).2.symm) hg

theorem KeepsOnError.onTarget {act : Place → String → Bool → Os Unit} {otherwise : OsError}
    (hact : ∀ place name slash, KeepsOnError (act place name slash)) :
    KeepsOnError (onTarget path act otherwise) := by
  refine KeepsOnError.look_bind ?_
  rintro ⟨place, last⟩
  cases last with
  | name name slash => exact hact place name slash
  | _ => exact keepsOnError_throw _

theorem makeDirectory_error {e : OsError} (h : makeDirectory path machine = .error e machine') :
    ∃ faults, machine' = machine.withFaults faults := by
  rw [makeDirectory_eq] at h
  refine writing_error (KeepsOnError.onTarget fun place name slash => ?_) h
  refine KeepsOnError.get_bind fun machine => ?_
  split
  · exact keepsOnError_throw _
  · exact keepsOnError_modifyTree _

theorem createFile_error {e : OsError} (h : createFile path machine = .error e machine') :
    ∃ faults, machine' = machine.withFaults faults := by
  rw [createFile_eq] at h
  refine writing_error (KeepsOnError.onTarget fun place name slash => ?_) h
  split
  · exact keepsOnError_throw _
  refine KeepsOnError.get_bind fun machine => ?_
  split
  · exact keepsOnError_throw _
  · exact KeepsOnError.get_bind fun _ => keepsOnError_modifyTree _

theorem putText_error {slashError e : OsError}
    (h : writing (putText slashError path content) machine = .error e machine') :
    ∃ faults, machine' = machine.withFaults faults := by
  rw [putText_eq] at h
  refine writing_error (KeepsOnError.onTarget fun place name slash => ?_) h
  split
  · exact keepsOnError_throw _
  refine KeepsOnError.get_bind fun machine => ?_
  split
  · exact keepsOnError_throw _
  · exact KeepsOnError.get_bind fun _ => keepsOnError_modifyTree _

theorem removeDirectory_error {e : OsError}
    (h : removeDirectory path machine = .error e machine') : machine' = machine := by
  rw [removeDirectory_eq] at h
  refine KeepsOnError.onTarget (fun place name slash => ?_) h
  refine KeepsOnError.get_bind fun machine => ?_
  split
  · exact keepsOnError_throw _
  · exact keepsOnError_throw _
  · exact keepsOnError_throw _
  · exact keepsOnError_modifyTree _

theorem syncFile_cases (machine : Machine) : ∃ faults,
    syncFile machine = .ok () (machine.withFaults faults) ∨
      ∃ e, syncFile machine = .error e (machine.withFaults faults) := by
  rw [syncFile, writing]
  split
  · exact ⟨machine.faults, Or.inl rfl⟩
  · exact ⟨_, Or.inl rfl⟩
  · exact ⟨_, Or.inr ⟨_, rfl⟩⟩

end Os

end PluginWorkshop
