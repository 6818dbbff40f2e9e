import PluginWorkshop.Proofs.Machine.Operations
import PluginWorkshop.Proofs.Machine.Places
import Mathlib.Data.List.Infix

/-!
# Making directories and taking them back

Making a directory with its parents builds the missing ones on the tree, each in the one made before
it (`makeDirectories_after`), whether or not it comes to an end. Removing all the missing parents
of a file gives the first tree back (`removeDirectories_build`), unless a path that goes up again
from a missing directory names one that was there or was made already (`Retraceable`).
-/

namespace PluginWorkshop

namespace Os

open FileTree (Node)

/-- A directory that was made: the path that named it, and where it stands. -/
structure Made where
  path : Path
  parent : Place
  name : String

/-- The place of the directory. -/
def Made.place (m : Made) : Place := m.parent ++ [m.name]

/-- The tree with directories made in it; the list starts with the last one. -/
def build (tree : FileTree) : List Made → FileTree
  | [] => tree
  | m :: made => (build tree made).put m.parent m.name (.directory [])

/-- Each of the directories could be made when those behind it in the list were there. -/
def Makeable (machine : Machine) : List Made → Prop
  | [] => True
  | m :: made =>
    (∃ slash, target (machine.withTree (build machine.tree made)) m.path =
      .ok (m.parent, .name m.name slash)) ∧
    (build machine.tree made).nodeAt m.place = none ∧ Makeable machine made

variable {machine machine' : Machine} {m : Made} {made : List Made} {path : Path}

theorem target_withTree_of_extends {tree tree' : FileTree} {place : Place} {name : String}
    {slash : Bool} (h : Extends tree tree')
    (htarget : target (machine.withTree tree) path = .ok (place, .name name slash)) :
    target (machine.withTree tree') path = .ok (place, .name name slash) := by
  have hcwd : (machine.withTree tree').cwd = (machine.withTree tree).cwd := rfl
  exact target_of_extends h hcwd htarget

theorem locate_withTree_of_extends {tree tree' : FileTree} {place : Place} (h : Extends tree tree')
    (hlocate : locate (machine.withTree tree) path = .ok place) :
    locate (machine.withTree tree') path = .ok place := by
  have hcwd : (machine.withTree tree').cwd = (machine.withTree tree).cwd := rfl
  exact locate_of_extends h hcwd hlocate

theorem makeable_withFaults {faults : List (Option OsError)} :
    ∀ {made : List Made}, Makeable (machine.withFaults faults) made ↔ Makeable machine made
  | [] => Iff.rfl
  | _ :: _ => and_congr Iff.rfl (and_congr Iff.rfl makeable_withFaults)

theorem Makeable.parent (h : Makeable machine (m :: made)) :
    (build machine.tree made).nodeAt m.parent = some .directory := by
  obtain ⟨⟨slash, htarget⟩, -, -⟩ := h
  exact target_isDirectory htarget (by simp)

theorem nodeAt_build_cons (h : Makeable machine (m :: made)) (q : Place) :
    (build machine.tree (m :: made)).nodeAt q =
      if q = m.place then some .directory else (build machine.tree made).nodeAt q := by
  have hnone := h.2.1
  rw [build, FileTree.nodeAt_put h.parent (by rw [← Made.place, hnone]; simp) rfl]
  rfl

theorem nodeAt_build (h : Makeable machine made) (q : Place) :
    (build machine.tree made).nodeAt q =
      if ∃ m ∈ made, q = m.place then some .directory else machine.tree.nodeAt q := by
  induction made with
  | nil => simp [build]
  | cons m made ih =>
    rw [nodeAt_build_cons h, ih h.2.2]
    by_cases hq : q = m.place
    · simp [hq]
    · simp [hq]

theorem extends_build_cons (h : Makeable machine (m :: made)) :
    Extends (build machine.tree made) (build machine.tree (m :: made)) :=
  extends_put h.parent h.2.1 rfl

theorem extends_build (h : Makeable machine made) :
    Extends machine.tree (build machine.tree made) := by
  induction made with
  | nil => exact Extends.refl _
  | cons m made ih => exact (ih h.2.2).trans (extends_build_cons h)

/-- What was made was missing before, and stands where its path says. -/
theorem Makeable.of_mem (h : Makeable machine made) (hm : m ∈ made) :
    m.path ≠ "" ∧ fileExists machine m.path = false ∧ m.place = namedPlace machine m.path := by
  induction made with
  | nil => simp at hm
  | cons m' made ih =>
    rcases List.mem_cons.mp hm with rfl | hm
    · obtain ⟨⟨slash, htarget⟩, hnone, hmade⟩ := h
      have hplace : m.place = namedPlace machine m.path := by
        have := target_eq_namedPlace htarget
        exact this
      obtain ⟨hcheck, -⟩ := target_eq_name.mp htarget
      refine ⟨(checkPath_eq_ok.mp hcheck).2.1, ?_, hplace⟩
      rw [Bool.eq_false_iff, Ne, fileExists_iff]
      rintro ⟨place, hlocate⟩
      have hlocate' : locate (machine.withTree (build machine.tree made)) m.path = .ok place :=
        locate_of_extends (extends_build hmade) rfl hlocate
      obtain rfl : place = m.place := (locate_eq_namedPlace hlocate).trans hplace.symm
      exact nodeAt_of_locate hlocate' hnone
    · exact ih h.2.2 hm

theorem Makeable.nodeAt_place (h : Makeable machine made) (hm : m ∈ made) :
    machine.tree.nodeAt m.place = none := by
  induction made with
  | nil => simp at hm
  | cons m' made ih =>
    rcases List.mem_cons.mp hm with rfl | hm
    · by_contra hsome
      obtain ⟨node, hnode⟩ := Option.ne_none_iff_exists'.mp hsome
      obtain ⟨node', hnode', -⟩ := extends_build h.2.2 hnode
      simp [h.2.1] at hnode'
    · exact ih h.2.2 hm

/-- A directory that was made is found by its path. -/
theorem Makeable.locate (h : Makeable machine made) (hm : m ∈ made) :
    Os.locate (machine.withTree (build machine.tree made)) m.path = .ok m.place := by
  induction made with
  | nil => simp at hm
  | cons m' made ih =>
    rcases List.mem_cons.mp hm with rfl | hm
    · obtain ⟨slash, htarget⟩ := h.1
      refine locate_of_target (target_withTree_of_extends (extends_build_cons h) htarget) (Or.inr ?_)
      exact (nodeAt_build_cons h _).trans (if_pos rfl)
    · exact locate_withTree_of_extends (extends_build_cons h) (ih h.2.2 hm)

/-! ## Making -/

/-- A directory that is made comes on top of those made before it. -/
theorem makeDirectory_build {faults : List (Option OsError)} (hmade : Makeable machine made)
    (h : makeDirectory path ((machine.withFaults faults).withTree (build machine.tree made)) =
      .ok () machine') :
    ∃ faults' parent name,
      machine' = (machine.withFaults faults').withTree
        (build machine.tree (⟨path, parent, name⟩ :: made)) ∧
      Makeable machine (⟨path, parent, name⟩ :: made) := by
  obtain ⟨parent, name, slash, faults', htarget, hnone, rfl⟩ := makeDirectory_ok h
  exact ⟨faults', parent, name, rfl, ⟨slash, htarget⟩, hnone, hmade⟩

theorem after_unlessDirectory (machine : Machine) (path : Path) (e : OsError) :
    after (do unless isDirectory (← get) path do throw e : Os Unit) machine = machine := by
  change after (if isDirectory machine path then pure () else throw e : Os Unit) machine = machine
  split_ifs <;> rfl

/-- However it ends, making directories has made some of those in the list. -/
theorem makeDirectories_after (machine : Machine) (paths : List Path) : ∃ faults made,
    after (makeDirectories paths) machine =
      (machine.withFaults faults).withTree (build machine.tree made) ∧
    Makeable machine made ∧ (made.map Made.path).Sublist paths := by
  induction paths generalizing machine with
  | nil => exact ⟨machine.faults, [], rfl, trivial, List.Sublist.refl _⟩
  | cons path parents ih =>
    cases hmake : makeDirectory path machine with
    | ok _ machine₁ =>
      have hmake' : makeDirectory path
          ((machine.withFaults machine.faults).withTree (build machine.tree [])) = _ := hmake
      have hnone : Makeable machine [] := trivial
      obtain ⟨faults, parent, name, rfl, hmade⟩ := makeDirectory_build hnone hmake'
      exact ⟨faults, _, after_tryCatch_of_ok hmake, hmade, by simp⟩
    | error e machine₁ =>
      obtain ⟨faults, rfl⟩ := makeDirectory_error hmake
      rw [makeDirectories, after_tryCatch_of_error hmake]
      split_ifs with hparent
      · obtain ⟨faults', made, hafter, hmade, hsub⟩ := ih (machine.withFaults faults)
        rw [makeable_withFaults] at hmade
        cases hparents : makeDirectories parents (machine.withFaults faults) with
        | error e' machine₂ =>
          obtain rfl := (after_of_error hparents).symm.trans hafter
          exact ⟨faults', made, after_bind_of_error hparents, hmade, hsub.cons path⟩
        | ok _ machine₂ =>
          obtain rfl := (after_of_ok hparents).symm.trans hafter
          rw [after_bind_of_ok hparents]
          cases hmake' : makeDirectory path
              (((machine.withFaults faults).withFaults faults').withTree
                (build (machine.withFaults faults).tree made)) with
          | ok _ machine₃ =>
            obtain ⟨faults'', parent, name, rfl, hmade'⟩ := makeDirectory_build hmade hmake'
            exact ⟨faults'', _, after_tryCatch_of_ok hmake', hmade', hsub.cons_cons path⟩
          | error e' machine₃ =>
            obtain ⟨faults'', rfl⟩ := makeDirectory_error hmake'
            rw [after_tryCatch_of_error hmake', after_unlessDirectory]
            exact ⟨faults'', made, rfl, hmade, hsub.cons path⟩
      · rw [after_unlessDirectory]
        exact ⟨faults, [], rfl, trivial, List.nil_sublist _⟩

end Os

namespace Files

open Os FileTree

variable {machine machine' : Machine} {m : Made} {made : List Made} {path : Path}

/-! ## Taking back -/

/-- The directories that are missing for a file lie on one branch of the tree, whatever is there. -/
def OneBranch (machine : Machine) (path : Path) : Prop :=
  ∀ d ∈ missingParents machine path, ∀ d' ∈ missingParents machine path,
    namedPlace machine d <+: namedPlace machine d' ∨ namedPlace machine d' <+: namedPlace machine d

instance (machine : Machine) (path : Path) : Decidable (OneBranch machine path) :=
  inferInstanceAs (Decidable (∀ d ∈ missingParents machine path,
    ∀ d' ∈ missingParents machine path, _ ∨ _))

/-- One of the two directories that are named lies below the other. -/
def OnBranch (machine : Machine) (d d' : Path) : Prop :=
  namedPlace machine d <+: namedPlace machine d' ∨ namedPlace machine d' <+: namedPlace machine d

instance (machine : Machine) (d d' : Path) : Decidable (OnBranch machine d d') :=
  inferInstanceAs (Decidable (_ ∨ _))

/-- There is a directory, and nothing in it. -/
def isEmptyAt (tree : FileTree) (place : Place) : Bool :=
  match tree.get? place with
  | some (.directory []) => true
  | _ => false

/-- Missing parents, the deepest first, can be taken back one by one. The way down to a file may lead
from a missing directory to an empty one that was there before, or a second time to one that was
missing. Then this one lies on one branch with those that were missing in between, and is not empty
until they are gone. -/
def Retraceable (machine : Machine) : List Path → Prop
  | [] => True
  | d :: above => Retraceable machine above ∧
    (isEmptyAt machine.tree (namedPlace machine d) = true → ∀ d' ∈ above, OnBranch machine d d') ∧
    above.Pairwise fun d' first =>
      namedPlace machine first = namedPlace machine d → OnBranch machine d d'

instance decidableRetraceable (machine : Machine) :
    (paths : List Path) → Decidable (Retraceable machine paths)
  | [] => inferInstanceAs (Decidable True)
  | _ :: above =>
    have := decidableRetraceable machine above
    inferInstanceAs (Decidable (_ ∧ _ ∧ _))

theorem retraceable_withFaults {faults : List (Option OsError)} :
    ∀ {paths : List Path}, Retraceable (machine.withFaults faults) paths ↔ Retraceable machine paths
  | [] => Iff.rfl
  | _ :: _ => and_congr retraceable_withFaults Iff.rfl

theorem retraceable_of_forall {paths : List Path}
    (h : ∀ d ∈ paths, ∀ d' ∈ paths, OnBranch machine d d') : Retraceable machine paths := by
  induction paths with
  | nil => trivial
  | cons d above ih =>
    have habove : ∀ d' ∈ above, OnBranch machine d d' := fun d' hd' =>
      h d List.mem_cons_self d' (List.mem_cons_of_mem d hd')
    refine ⟨ih fun d' hd' d'' hd'' =>
      h d' (List.mem_cons_of_mem d hd') d'' (List.mem_cons_of_mem d hd''), fun _ => habove, ?_⟩
    exact List.pairwise_of_forall_mem_list fun d' hd' _ _ _ => habove d' hd'

theorem OneBranch.retraceable (h : OneBranch machine path) :
    Retraceable machine (missingParents machine path) :=
  retraceable_of_forall h

/-- A directory that is empty in a larger tree was so before. -/
theorem isEmptyAt_of_extends {tree tree' : FileTree} {place : Place} (h : Extends tree tree')
    (hdir : tree.nodeAt place = some .directory) (hget : tree'.get? place = some (.directory [])) :
    isEmptyAt tree place = true := by
  obtain ⟨entries, hentries⟩ := nodeAt_eq_directory.mp hdir
  cases entries with
  | nil => rw [isEmptyAt, hentries]
  | cons entry entries =>
    obtain ⟨name, below⟩ := entry
    have hbelow : tree.nodeAt (place ++ [name]) = some below.node := by
      rw [nodeAt, get?_concat hentries]
      simp [Entries.get?]
    obtain ⟨node, hnode, -⟩ := h hbelow
    rw [nodeAt, get?_concat hget] at hnode
    simp [Entries.get?] at hnode

/-- An empty directory on one branch with the directory made last is this one. -/
theorem eq_place_of_isEmpty {place : Place} (hmade : Makeable machine (m :: made))
    (hget : (build machine.tree (m :: made)).get? place = some (.directory []))
    (hbranch : place <+: m.place ∨ m.place <+: place) : place = m.place := by
  by_contra hne
  rcases hbranch with ⟨rest, hrest⟩ | ⟨rest, hrest⟩
  · -- The directory made last would stand in an empty one.
    have hrest' : rest ≠ [] := by
      rintro rfl
      exact hne (by simpa using hrest)
    obtain ⟨n, rest, rfl⟩ := List.exists_cons_of_ne_nil hrest'
    have hlast : (build machine.tree (m :: made)).nodeAt m.place = some .directory := by
      rw [nodeAt_build_cons hmade, if_pos rfl]
    rw [← hrest, nodeAt, get?_append, hget] at hlast
    simp [get?, FileTree.entries, Entries.get?] at hlast
  · -- It would have been there before what stands above it was made.
    have hrest' : rest ≠ [] := by
      rintro rfl
      exact hne (by simpa using hrest.symm)
    have hdir : (build machine.tree (m :: made)).nodeAt place = some .directory :=
      nodeAt_eq_directory.mpr ⟨[], hget⟩
    rw [nodeAt_build_cons hmade, if_neg hne, ← hrest,
      nodeAt_append_eq_none hrest' (by rw [hmade.2.1]; simp)] at hdir
    simp at hdir

/-- If a missing parent names an empty directory, it lies on one branch with the directory made
last. -/
theorem onBranch_of_isEmpty {paths : List Path} (hmade : Makeable machine (m :: made))
    (hway : Retraceable machine (path :: paths))
    (hsub : ((m :: made).map Made.path).Sublist (path :: paths))
    (hget : (build machine.tree (m :: made)).get? (namedPlace machine path) =
      some (.directory [])) : OnBranch machine path m.path := by
  obtain ⟨-, hempty, htwice⟩ := hway
  rw [List.map_cons] at hsub
  rcases List.cons_sublist_cons'.mp hsub with hsub | ⟨hpath, -⟩
  · have hdir : (build machine.tree (m :: made)).nodeAt (namedPlace machine path) =
        some .directory := nodeAt_eq_directory.mpr ⟨[], hget⟩
    rw [nodeAt_build hmade] at hdir
    split_ifs at hdir with hold
    · obtain ⟨first, hfirst, hplace⟩ := hold
      rw [(hmade.of_mem hfirst).2.2] at hplace
      rcases List.mem_cons.mp hfirst with rfl | hfirst
      · exact Or.inl (by rw [hplace])
      · have hpairs := List.pairwise_cons.mp (htwice.sublist hsub)
        exact hpairs.1 _ (List.mem_map_of_mem hfirst) hplace.symm
    · exact hempty (isEmptyAt_of_extends (extends_build hmade) hdir hget) _
        (hsub.subset List.mem_cons_self)
  · exact Or.inl (by rw [hpath])

/-- Of the directories that a missing parent may name, only the one made last is removed. -/
theorem removeDirectory_build {paths : List Path} (hmade : Makeable machine made)
    (hmissing : fileExists machine path = false) (hway : Retraceable machine (path :: paths))
    (hsub : (made.map Made.path).Sublist (path :: paths))
    (h : removeDirectory path (machine.withTree (build machine.tree made)) = .ok () machine') :
    ∃ m made', made = m :: made' ∧ machine' = machine.withTree (build machine.tree made') := by
  obtain ⟨place, name, slash, htarget, hget, rfl⟩ := removeDirectory_ok h
  rw [Machine.withTree_tree] at hget
  have hplace : place ++ [name] = namedPlace machine path := by
    have := target_eq_namedPlace htarget
    exact this
  cases made with
  | nil =>
    have hlocate := locate_of_target htarget (Or.inr (nodeAt_eq_directory.mpr ⟨[], hget⟩))
    rw [Bool.eq_false_iff, Ne, fileExists_iff] at hmissing
    exact absurd ⟨_, hlocate⟩ hmissing
  | cons m made' =>
    have hbranch := onBranch_of_isEmpty hmade hway hsub (hplace ▸ hget)
    rw [OnBranch, ← hplace, ← (hmade.of_mem List.mem_cons_self).2.2] at hbranch
    obtain ⟨rfl, hname⟩ := List.append_inj' (eq_place_of_isEmpty hmade hget hbranch) rfl
    obtain rfl : name = m.name := by simpa using hname
    refine ⟨m, made', rfl, ?_⟩
    rw [Machine.withTree_withTree, Machine.withTree_tree, build,
      remove_put (nodeAt_eq_none.mp hmade.2.1)]

/-- The directory made last can be removed by its path. -/
theorem removeDirectory_build_cons (hmade : Makeable machine (m :: made)) :
    removeDirectory m.path (machine.withTree (build machine.tree (m :: made))) =
      .ok () (machine.withTree (build machine.tree made)) := by
  obtain ⟨slash, htarget⟩ := hmade.1
  have htarget' : target (machine.withTree (build machine.tree (m :: made))) m.path =
      .ok (m.parent, .name m.name slash) :=
    target_withTree_of_extends (extends_build_cons hmade) htarget
  rw [removeDirectory_of_target htarget' (get?_put_self hmade.parent), Machine.withTree_withTree,
    Machine.withTree_tree, build, remove_put (nodeAt_eq_none.mp hmade.2.1)]

theorem removeDirectories_cons (d : Path) (paths : List Path) :
    removeDirectories (d :: paths) =
      (ignoringErrors (removeDirectory d) >>= fun _ => removeDirectories paths) :=
  rfl

/-- Removing the missing parents takes back those of them that were made. -/
theorem removeDirectories_build {paths : List Path}
    (hmissing : ∀ d ∈ paths, fileExists machine d = false) (hway : Retraceable machine paths)
    (hmade : Makeable machine made) (hsub : (made.map Made.path).Sublist paths) :
    removeDirectories paths (machine.withTree (build machine.tree made)) = .ok () machine := by
  induction paths generalizing made with
  | nil =>
    obtain rfl : made = [] := by simpa using hsub
    rfl
  | cons d paths ih =>
    have hmissing' := fun d' hd' => hmissing d' (List.mem_cons_of_mem d hd')
    rw [removeDirectories_cons]
    cases hremove : removeDirectory d (machine.withTree (build machine.tree made)) with
    | ok _ machine₁ =>
      obtain ⟨m, made', rfl, rfl⟩ :=
        removeDirectory_build hmade (hmissing d List.mem_cons_self) hway hsub hremove
      have hsub' : (made'.map Made.path).Sublist paths := by
        rw [List.map_cons] at hsub
        rcases List.cons_sublist_cons'.mp hsub with hsub | ⟨-, hsub⟩
        · exact (List.sublist_cons_self _ _).trans hsub
        · exact hsub
      refine bind_eq_ok.mpr ⟨(), machine.withTree (build machine.tree made'), ?_,
        ih hmissing' hway.1 hmade.2.2 hsub'⟩
      rw [ignoringErrors, hremove]
    | error e machine₁ =>
      obtain rfl := removeDirectory_error hremove
      have hsub' : (made.map Made.path).Sublist paths := by
        cases made with
        | nil => exact List.nil_sublist _
        | cons m made =>
          rw [List.map_cons] at hsub
          rcases List.cons_sublist_cons'.mp hsub with hsub | ⟨rfl, -⟩
          · exact hsub
          · rw [removeDirectory_build_cons hmade] at hremove
            cases hremove
      refine bind_eq_ok.mpr ⟨(), _, ?_, ih hmissing' hway.1 hmade hsub'⟩
      rw [ignoringErrors, hremove]

end Files

end PluginWorkshop
