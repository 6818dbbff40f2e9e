import PluginWorkshop.Machine.Files
import PluginWorkshop.Proofs.Machine.Operations
import PluginWorkshop.Proofs.Machine.Places
import Mathlib.Data.List.Nodup

/-!
# Removing files

In a tree that lists no name twice in a directory (`FileTree.Distinct`), removing a file takes one
node away (`FileTree.nodeAt_remove_file`).
-/

namespace PluginWorkshop

namespace Entries

variable {name n : String} {entries : Entries} {entry : FileTree} {change : FileTree → FileTree}

theorem mem_of_get? : ∀ {entries : Entries}, get? name entries = some entry → (name, entry) ∈ entries
  | [], h => by simp [get?] at h
  | (k, e) :: entries, h => by
    rw [get?] at h
    split_ifs at h with hk
    · simp [hk, Option.some.inj h]
    · exact List.mem_cons_of_mem _ (mem_of_get? h)

theorem get?_eq_none_iff : ∀ {entries : Entries}, get? name entries = none ↔
    name ∉ entries.map Prod.fst
  | [] => by simp [get?]
  | (k, e) :: entries => by
    rw [get?, List.map_cons, List.mem_cons, not_or]
    split_ifs with hk
    · simp [hk]
    · rw [get?_eq_none_iff]
      exact ⟨fun h => ⟨Ne.symm hk, h⟩, And.right⟩

/-- Removing a name leaves the other entries, and none under the name if it is listed once. -/
theorem get?_remove (name n : String) : ∀ {entries : Entries}, (entries.map Prod.fst).Nodup →
    get? n (remove name entries) = if name = n then none else get? n entries
  | [], _ => by simp [remove, get?]
  | (k, e) :: entries, h => by
    obtain ⟨hk, hnodup⟩ := List.nodup_cons.mp h
    rw [remove]
    by_cases hkn : k = name
    · subst hkn
      rw [if_pos rfl, get?]
      split_ifs with hn
      · exact get?_eq_none_iff.mpr (hn ▸ hk)
      · rfl
    · rw [if_neg hkn, get?, get?, get?_remove name n hnodup]
      split_ifs with h₁ h₂ <;> simp_all

theorem map_fst_modify (name : String) (change : FileTree → FileTree) :
    ∀ entries : Entries, (modify name change entries).map Prod.fst = entries.map Prod.fst
  | [] => rfl
  | (k, e) :: entries => by
    rw [modify]
    split_ifs
    · rfl
    · rw [List.map_cons, map_fst_modify name change entries, List.map_cons]

theorem mem_modify : ∀ {entries : Entries} {m : String × FileTree}, m ∈ modify name change entries →
    m ∈ entries ∨ ∃ old, (m.1, old) ∈ entries ∧ m.2 = change old
  | [], _, h => by simp [modify] at h
  | (k, e) :: entries, m, h => by
    rw [modify] at h
    split_ifs at h with hk
    · rcases List.mem_cons.mp h with rfl | h
      · exact Or.inr ⟨e, by simp⟩
      · exact Or.inl (List.mem_cons_of_mem _ h)
    · rcases List.mem_cons.mp h with rfl | h
      · exact Or.inl (by simp)
      · rcases mem_modify h with h | ⟨old, hold, hchange⟩
        · exact Or.inl (List.mem_cons_of_mem _ h)
        · exact Or.inr ⟨old, List.mem_cons_of_mem _ hold, hchange⟩

theorem map_fst_put (name : String) (entry : FileTree) : ∀ entries : Entries,
    (put name entry entries).map Prod.fst =
      if name ∈ entries.map Prod.fst then entries.map Prod.fst else entries.map Prod.fst ++ [name]
  | [] => by simp [put]
  | (k, e) :: entries => by
    rw [put]
    by_cases hk : k = name
    · simp [hk]
    · rw [if_neg hk, List.map_cons, map_fst_put name entry entries, List.map_cons]
      by_cases hmem : name ∈ entries.map Prod.fst
      · rw [if_pos hmem, if_pos (List.mem_cons_of_mem k hmem)]
      · rw [if_neg hmem, if_neg (List.not_mem_cons_of_ne_of_not_mem (Ne.symm hk) hmem),
          List.cons_append]

theorem mem_put : ∀ {entries : Entries} {m : String × FileTree}, m ∈ put name entry entries →
    m ∈ entries ∨ m = (name, entry)
  | [], m, h => by simpa [put] using h
  | (k, e) :: entries, m, h => by
    rw [put] at h
    split_ifs at h with hk
    · subst hk
      rcases List.mem_cons.mp h with rfl | h
      · exact Or.inr rfl
      · exact Or.inl (List.mem_cons_of_mem _ h)
    · rcases List.mem_cons.mp h with rfl | h
      · exact Or.inl (by simp)
      · exact (mem_put h).imp (List.mem_cons_of_mem _) id

theorem map_fst_remove_sublist (name : String) : ∀ entries : Entries,
    ((remove name entries).map Prod.fst).Sublist (entries.map Prod.fst)
  | [] => List.Sublist.refl _
  | (k, e) :: entries => by
    rw [remove]
    split_ifs
    · exact List.sublist_cons_self _ _
    · exact (map_fst_remove_sublist name entries).cons_cons k

theorem mem_of_mem_remove : ∀ {entries : Entries} {m : String × FileTree},
    m ∈ remove name entries → m ∈ entries
  | [], _, h => h
  | (k, e) :: entries, m, h => by
    rw [remove] at h
    split_ifs at h
    · exact List.mem_cons_of_mem _ h
    · rcases List.mem_cons.mp h with rfl | h
      · exact List.mem_cons_self
      · exact List.mem_cons_of_mem _ (mem_of_mem_remove h)

end Entries

namespace FileTree

variable {tree : FileTree} {place q : Place} {name : String}

/-- No directory lists a name twice. -/
inductive Distinct : FileTree → Prop where
  | file (content : ByteArray) (modified : Time) : Distinct (file content modified)
  | directory {entries : Entries} (names : (entries.map Prod.fst).Nodup)
      (below : ∀ m ∈ entries, Distinct m.2) : Distinct (directory entries)

theorem Distinct.of_get? (h : tree.Distinct) {entry : FileTree} (hget : tree.get? place = some entry) :
    entry.Distinct := by
  induction place generalizing tree with
  | nil =>
    obtain rfl := Option.some.inj hget
    exact h
  | cons name place ih =>
    rw [get?, Option.bind_eq_some_iff] at hget
    obtain ⟨below, hbelow, hget⟩ := hget
    cases h with
    | file => simp [FileTree.entries, Entries.get?] at hbelow
    | directory names hentries => exact ih (hentries _ (Entries.mem_of_get? hbelow)) hget

/-- The names stay distinct if those of the directory that is changed do. -/
theorem Distinct.modifyEntries {change : Entries → Entries} (h : tree.Distinct)
    (hchange : ∀ {entries : Entries}, (FileTree.directory entries).Distinct →
      (FileTree.directory (change entries)).Distinct) :
    (tree.modifyEntries change place).Distinct := by
  induction place generalizing tree with
  | nil =>
    cases tree with
    | file => exact h
    | directory entries => exact hchange h
  | cons n place ih =>
    cases h with
    | file => exact Distinct.file _ _
    | directory names below =>
      refine Distinct.directory (by rwa [Entries.map_fst_modify]) fun m hm => ?_
      rcases Entries.mem_modify hm with hm | ⟨old, hold, hm⟩
      · exact below m hm
      · rw [hm]
        exact ih (below _ hold)

/-- Putting an entry keeps the names distinct. -/
theorem Distinct.put (h : tree.Distinct) {entry : FileTree} (hentry : entry.Distinct) :
    (tree.put place name entry).Distinct := by
  refine h.modifyEntries fun | .directory names below => Distinct.directory ?_ fun m hm => ?_
  · rw [Entries.map_fst_put]
    split_ifs with hmem
    · exact names
    · exact List.concat_eq_append ▸ List.Nodup.concat hmem names
  · rcases Entries.mem_put hm with hm | rfl
    · exact below m hm
    · exact hentry

/-- Removing an entry keeps the names distinct. -/
theorem Distinct.remove (h : tree.Distinct) (place : Place) (name : String) :
    (tree.remove place name).Distinct := by
  refine h.modifyEntries fun | .directory names below => Distinct.directory ?_ fun m hm => ?_
  · exact (Entries.map_fst_remove_sublist name _).nodup names
  · exact below m (Entries.mem_of_mem_remove hm)

/-- Removing an entry takes it away with all below it, and nothing else. -/
theorem nodeAt_remove (h : tree.Distinct) (hplace : tree.nodeAt place = some .directory) (q : Place) :
    (tree.remove place name).nodeAt q =
      if place ++ [name] <+: q then none else tree.nodeAt q := by
  obtain ⟨entries, hentries⟩ := nodeAt_eq_directory.mp hplace
  have names : (entries.map Prod.fst).Nodup := by
    cases h.of_get? hentries with
    | directory names _ => exact names
  by_cases hq : ∃ n, place ++ [n] <+: q
  · obtain ⟨n, rest, rfl⟩ := hq
    rw [List.append_assoc, List.singleton_append]
    have hprefix : place ++ [name] <+: place ++ n :: rest ↔ name = n := by
      simp [List.prefix_append_right_inj, List.cons_prefix_cons]
    simp only [nodeAt, remove, get?_modifyEntries_below hentries, get?_append, hentries,
      FileTree.entries, get?, Entries.get?_remove name n names, hprefix, Option.bind_some]
    split_ifs <;> simp
  · rw [if_neg fun hprefix => hq ⟨name, hprefix⟩]
    exact nodeAt_modifyEntries fun n hprefix => hq ⟨n, hprefix⟩

/-- Removing a file changes one node. -/
theorem nodeAt_remove_file (h : tree.Distinct) {content : ByteArray} {modified : Time}
    (hfile : tree.nodeAt (place ++ [name]) = some (.file content modified)) (q : Place) :
    (tree.remove place name).nodeAt q = if q = place ++ [name] then none else tree.nodeAt q := by
  have hplace : tree.nodeAt place = some .directory := by
    by_contra hne
    rw [nodeAt_append_eq_none (List.cons_ne_nil name []) hne] at hfile
    cases hfile
  rw [nodeAt_remove h hplace]
  by_cases hq : q = place ++ [name]
  · rw [if_pos (hq ▸ List.prefix_refl _), if_pos hq]
  · rw [if_neg hq]
    split_ifs with hprefix
    · obtain ⟨rest, rfl⟩ := hprefix
      exact (nodeAt_append_eq_none (by rintro rfl; simp at hq) (by simp [hfile])).symm
    · rfl

/-- Removing a file leaves the directories. -/
theorem keepsDirectories_remove (h : tree.Distinct) {content : ByteArray} {modified : Time}
    (hfile : tree.nodeAt (place ++ [name]) = some (.file content modified)) :
    Os.KeepsDirectories tree (tree.remove place name) := by
  intro q hq
  rw [nodeAt_remove_file h hfile, if_neg (by rintro rfl; simp [hfile] at hq), hq]

end FileTree

section TryCatch

variable {ε σ α : Type} {x : EStateM ε σ α} {handle : ε → EStateM ε σ α} {s s' : σ} {a : α} {e : ε}

theorem tryCatch_of_ok (h : x s = .ok a s') : tryCatch x handle s = .ok a s' := by
  rw [tryCatch_apply, h]

theorem tryCatch_of_error (h : x s = .error e s') : tryCatch x handle s = handle e s' := by
  rw [tryCatch_apply, h]

end TryCatch

namespace Files

open Os

variable {machine : Machine} {path : Path} {directory : Place} {name : String}

theorem removeIfExists_of_ok {machine' : Machine}
    (h : Os.removeFile path machine = .ok () machine') :
    removeIfExists path machine = .ok true machine' := by
  refine orFail_eq_ok.mpr (bind_eq_ok.mpr ⟨.error true, machine', ?_, rfl⟩)
  exact tryCatch_of_ok (bind_eq_ok.mpr ⟨(), machine', h, rfl⟩)

theorem removeIfExists_of_notFound (h : Os.removeFile path machine = .error .notFound machine) :
    removeIfExists path machine = .ok false machine := by
  refine orFail_eq_ok.mpr (bind_eq_ok.mpr ⟨.error false, machine, ?_, rfl⟩)
  exact (tryCatch_of_error (bind_eq_error.mpr (Or.inl h))).trans (congrFun (if_pos rfl) machine)

theorem removeIfExists_of_error {e : OsError} (he : e ≠ .notFound)
    (h : Os.removeFile path machine = .error e machine) :
    removeIfExists path machine = .error (.writeFailed path e) machine := by
  refine orFail_eq_error.mpr ⟨e, bind_eq_error.mpr (Or.inl ?_), rfl⟩
  exact (tryCatch_of_error (bind_eq_error.mpr (Or.inl h))).trans (congrFun (if_neg he) machine)

/-- A file is removed, and nothing is as good as a file removed. -/
theorem removeIfExists_of_target (htarget : target machine path = .ok (directory, .name name false)) :
    removeIfExists path machine = match machine.tree.nodeAt (directory ++ [name]) with
      | none => .ok false machine
      | some .directory => .error (.writeFailed path .isADirectory) machine
      | some (.file _ _) => .ok true (machine.withTree (machine.tree.remove directory name)) := by
  have hremove := removeFile_of_target htarget
  rw [FileTree.nodeAt]
  cases hget : machine.tree.get? (directory ++ [name]) with
  | none => exact removeIfExists_of_notFound (by rw [hremove, hget])
  | some entry =>
    cases entry with
    | file content modified => exact removeIfExists_of_ok (by rw [hremove, hget])
    | directory entries => exact removeIfExists_of_error (by decide) (by rw [hremove, hget])

theorem removeIfExists_of_target_eq_error {e : OsError} (htarget : target machine path = .error e)
    (he : e ≠ .notFound) :
    removeIfExists path machine = .error (.writeFailed path e) machine := by
  refine removeIfExists_of_error he (bind_eq_error.mpr (Or.inl ?_))
  rw [look, htarget]

end Files

end PluginWorkshop
