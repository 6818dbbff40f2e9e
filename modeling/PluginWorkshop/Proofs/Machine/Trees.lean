import PluginWorkshop.Machine.FileTree
import Mathlib.Data.List.Basic

/-!
# Trees place by place

What `put` and `remove` do to a file tree. A tree is seen as a map from places to nodes
(`FileTree.nodeAt`): putting a file or an empty directory where no directory stands changes this map
at one place (`nodeAt_put`), and removing what was put where there was nothing gives the same tree
back (`remove_put`).
-/

namespace PluginWorkshop

namespace Entries

attribute [local simp] get? put modify remove

variable {name : String} {entries : Entries}

theorem get?_put (name n : String) (entry : FileTree) :
    ∀ entries : Entries,
      get? n (put name entry entries) = if name = n then some entry else get? n entries
  | [] => by simp
  | (k, e) :: entries => by
    have ih := get?_put name n entry entries
    rw [put]
    split <;> simp only [get?] <;> split_ifs <;> simp_all

theorem get?_modify (name n : String) (change : FileTree → FileTree) :
    ∀ entries : Entries, get? n (modify name change entries) =
      if name = n then (get? n entries).map change else get? n entries
  | [] => by simp
  | (k, e) :: entries => by
    have ih := get?_modify name n change entries
    rw [modify]
    split <;> simp only [get?] <;> split_ifs <;> simp_all

theorem modify_of_get?_none {change : FileTree → FileTree} :
    ∀ {entries : Entries}, get? name entries = none → modify name change entries = entries
  | [], _ => rfl
  | (k, e) :: entries, h => by
    by_cases hk : k = name
    · simp [hk] at h
    · rw [get?, if_neg hk] at h
      rw [modify, if_neg hk, modify_of_get?_none h]

theorem modify_modify (change change' : FileTree → FileTree) :
    ∀ entries : Entries, modify name change' (modify name change entries) =
      modify name (change' ∘ change) entries
  | [] => rfl
  | (k, e) :: entries => by
    have ih := modify_modify change change' entries
    by_cases hk : k = name <;> simp [hk, ih]

theorem modify_eq_self {change : FileTree → FileTree} {entry : FileTree} :
    ∀ {entries : Entries}, get? name entries = some entry → change entry = entry →
      modify name change entries = entries
  | [], h, _ => by simp at h
  | (k, e) :: entries, h, hchange => by
    by_cases hk : k = name
    · rw [get?, if_pos hk, Option.some.injEq] at h
      rw [modify, if_pos hk, h, hchange]
    · rw [get?, if_neg hk] at h
      rw [modify, if_neg hk, modify_eq_self h hchange]

theorem put_of_get?_none (entry : FileTree) :
    ∀ {entries : Entries}, get? name entries = none →
      put name entry entries = entries ++ [(name, entry)]
  | [], _ => rfl
  | (k, e) :: entries, h => by
    by_cases hk : k = name
    · simp [hk] at h
    · rw [get?, if_neg hk] at h
      rw [put, if_neg hk, put_of_get?_none entry h]
      rfl

theorem put_put (entry entry' : FileTree) :
    ∀ entries : Entries, put name entry' (put name entry entries) = put name entry' entries
  | [] => by simp
  | (k, e) :: entries => by
    by_cases hk : k = name <;> simp [hk, put_put entry entry' entries]

theorem remove_put (entry : FileTree) (h : get? name entries = none) :
    remove name (put name entry entries) = entries := by
  rw [put_of_get?_none entry h]
  induction entries with
  | nil => simp
  | cons m entries ih =>
    by_cases hk : m.1 = name
    · simp [hk] at h
    · rw [get?, if_neg hk] at h
      rw [List.cons_append, remove, if_neg hk, ih h]

end Entries

namespace FileTree

attribute [local simp] get? modifyEntries

variable {tree : FileTree} {place : Place} {name : String} {entries : Entries}

theorem get?_append (tree : FileTree) (p q : Place) :
    tree.get? (p ++ q) = (tree.get? p).bind (get? q) := by
  induction p generalizing tree with
  | nil => rfl
  | cons name p ih =>
    rw [List.cons_append, get?, get?]
    cases Entries.get? name tree.entries with
    | none => rfl
    | some entry => exact ih entry

theorem get?_concat (h : tree.get? place = some (.directory entries)) (name : String) :
    tree.get? (place ++ [name]) = Entries.get? name entries := by
  rw [get?_append, h]
  change (Entries.get? name entries).bind (get? []) = _
  cases Entries.get? name entries <;> rfl

/-- A parent of something is a directory. -/
theorem exists_directory {q : Place} (hq : q ≠ []) (h : tree.get? (place ++ q) ≠ none) :
    ∃ entries, tree.get? place = some (.directory entries) := by
  rw [get?_append] at h
  cases hp : tree.get? place with
  | none => simp [hp] at h
  | some entry =>
    cases entry with
    | directory entries => exact ⟨entries, rfl⟩
    | file content modified =>
      obtain ⟨name, q, rfl⟩ := List.exists_cons_of_ne_nil hq
      simp [hp, FileTree.entries, Entries.get?] at h

/-! ## Changing the entries of a directory -/

variable {change : Entries → Entries}

theorem get?_modifyEntries_below (h : tree.get? place = some (.directory entries)) (q : Place) :
    (tree.modifyEntries change place).get? (place ++ q) =
      (directory (change entries)).get? q := by
  induction place generalizing tree with
  | nil =>
    obtain rfl : tree = directory entries := by simpa using h
    rfl
  | cons name place ih =>
    cases tree with
    | file content modified => simp [FileTree.entries, Entries.get?] at h
    | directory es =>
      rw [get?, FileTree.entries, Option.bind_eq_some_iff] at h
      obtain ⟨entry, hentry, hget⟩ := h
      rw [modifyEntries, List.cons_append, get?, FileTree.entries, Entries.get?_modify,
        if_pos rfl, hentry]
      exact ih hget

theorem modifyEntries_of_ne_directory
    (h : ∀ entries, tree.get? place ≠ some (.directory entries)) :
    tree.modifyEntries change place = tree := by
  induction place generalizing tree with
  | nil =>
    cases tree with
    | file content modified => rfl
    | directory es => exact absurd rfl (h es)
  | cons name place ih =>
    cases tree with
    | file content modified => rfl
    | directory es =>
      rw [modifyEntries]
      cases hn : Entries.get? name es with
      | none => rw [Entries.modify_of_get?_none hn]
      | some entry =>
        rw [Entries.modify_eq_self hn (ih fun entries hget => h entries ?_)]
        simp [FileTree.entries, hn, hget]

theorem modifyEntries_modifyEntries (change' : Entries → Entries) (tree : FileTree) :
    (tree.modifyEntries change place).modifyEntries change' place =
      tree.modifyEntries (change' ∘ change) place := by
  induction place generalizing tree with
  | nil => cases tree <;> rfl
  | cons name place ih =>
    cases tree with
    | file content modified => rfl
    | directory es =>
      have hcomp : modifyEntries change' place ∘ modifyEntries change place =
          modifyEntries (change' ∘ change) place := funext ih
      simp [Entries.modify_modify, hcomp]

theorem modifyEntries_eq_self (h : tree.get? place = some (.directory entries))
    (hchange : change entries = entries) : tree.modifyEntries change place = tree := by
  induction place generalizing tree with
  | nil =>
    obtain rfl : tree = directory entries := by simpa using h
    rw [modifyEntries, hchange]
  | cons name place ih =>
    cases tree with
    | file content modified => rfl
    | directory es =>
      rw [get?, FileTree.entries, Option.bind_eq_some_iff] at h
      obtain ⟨entry, hentry, hget⟩ := h
      rw [modifyEntries, Entries.modify_eq_self hentry (ih hget)]

/-- What is put where there is nothing can be removed without a trace. -/
theorem remove_put (h : tree.get? (place ++ [name]) = none) (entry : FileTree) :
    (tree.put place name entry).remove place name = tree := by
  rw [put, remove, modifyEntries_modifyEntries]
  by_cases hdir : ∃ es, tree.get? place = some (.directory es)
  · obtain ⟨es, hes⟩ := hdir
    refine modifyEntries_eq_self hes (Entries.remove_put entry ?_)
    rwa [get?_concat hes] at h
  · exact modifyEntries_of_ne_directory fun es hes => hdir ⟨es, hes⟩

theorem put_put (entry entry' : FileTree) (tree : FileTree) :
    (tree.put place name entry).put place name entry' = tree.put place name entry' := by
  rw [put, put, modifyEntries_modifyEntries]
  congr 1
  exact funext (Entries.put_put entry entry')

/-! ## Nodes -/

/-- What stands at a place, without the entries of a directory. -/
inductive Node where
  | file (content : ByteArray) (modified : Time)
  | directory

def node : FileTree → Node
  | file content modified => .file content modified
  | directory _ => .directory

def nodeAt (tree : FileTree) (place : Place) : Option Node := (tree.get? place).map node

/-- At a place that does not lie below the changed directory, the node stays. -/
theorem nodeAt_modifyEntries {q : Place} (hq : ∀ name, ¬ place ++ [name] <+: q) :
    (tree.modifyEntries change place).nodeAt q = tree.nodeAt q := by
  induction place generalizing tree q with
  | nil =>
    cases q with
    | nil => cases tree <;> rfl
    | cons name q => exact absurd (List.prefix_append [name] q) (hq name)
  | cons name place ih =>
    cases tree with
    | file content modified => rfl
    | directory es =>
      cases q with
      | nil => rfl
      | cons n q =>
        simp only [nodeAt, modifyEntries, get?, FileTree.entries, Entries.get?_modify]
        split_ifs with hn
        · subst hn
          cases Entries.get? name es with
          | none => rfl
          | some entry =>
            exact ih fun n h => hq n (List.cons_prefix_cons.mpr ⟨rfl, h⟩)
        · rfl

theorem nodeAt_eq_directory :
    tree.nodeAt place = some .directory ↔ ∃ entries, tree.get? place = some (.directory entries) := by
  rw [nodeAt, Option.map_eq_some_iff]
  constructor
  · rintro ⟨entry, hentry, hnode⟩
    cases entry with
    | file content modified => simp [node] at hnode
    | directory entries => exact ⟨entries, hentry⟩
  · rintro ⟨entries, hentries⟩
    exact ⟨_, hentries, rfl⟩

theorem nodeAt_eq_file {content : ByteArray} {modified : Time} :
    tree.nodeAt place = some (.file content modified) ↔
      tree.get? place = some (.file content modified) := by
  rw [nodeAt, Option.map_eq_some_iff]
  constructor
  · rintro ⟨entry, hentry, hnode⟩
    cases entry with
    | file content' modified' =>
      obtain ⟨rfl, rfl⟩ : content' = content ∧ modified' = modified := by simpa [node] using hnode
      exact hentry
    | directory entries => simp [node] at hnode
  · exact fun h => ⟨_, h, rfl⟩

theorem nodeAt_eq_none : tree.nodeAt place = none ↔ tree.get? place = none := by
  simp [nodeAt]

/-- Only directories have anything below them. -/
theorem nodeAt_append_eq_none {q : Place} (hq : q ≠ [])
    (h : tree.nodeAt place ≠ some .directory) : tree.nodeAt (place ++ q) = none := by
  by_contra hne
  exact h (nodeAt_eq_directory.mpr (exists_directory hq fun hget =>
    hne (nodeAt_eq_none.mpr hget)))

theorem get?_put_self {entry : FileTree} (hplace : tree.nodeAt place = some .directory) :
    (tree.put place name entry).get? (place ++ [name]) = some entry := by
  obtain ⟨entries, hentries⟩ := nodeAt_eq_directory.mp hplace
  simp [put, get?_modifyEntries_below hentries, FileTree.entries, Entries.get?_put]

/-- Putting a file or an empty directory where no directory stands changes one node. -/
theorem nodeAt_put {entry : FileTree} (hplace : tree.nodeAt place = some .directory)
    (hold : tree.nodeAt (place ++ [name]) ≠ some .directory) (hentry : entry.entries = [])
    (q : Place) :
    (tree.put place name entry).nodeAt q =
      if q = place ++ [name] then some entry.node else tree.nodeAt q := by
  obtain ⟨entries, hentries⟩ := nodeAt_eq_directory.mp hplace
  have hbelow : ∀ rest, (tree.put place name entry).nodeAt (place ++ name :: rest) =
      entry.nodeAt rest := by
    intro rest
    simp [nodeAt, put, get?_modifyEntries_below hentries, FileTree.entries, Entries.get?_put]
  by_cases hq : ∃ n, place ++ [n] <+: q
  · obtain ⟨n, rest, rfl⟩ := hq
    rw [List.append_assoc, List.singleton_append]
    by_cases hn : n = name
    · subst hn
      rw [hbelow]
      cases rest with
      | nil => simp [nodeAt]
      | cons m rest =>
        have hnone : tree.nodeAt (place ++ n :: m :: rest) = none := by
          simpa using nodeAt_append_eq_none (List.cons_ne_nil m rest) hold
        rw [if_neg (by simp), hnone]
        simp [nodeAt, hentry, Entries.get?]
    · have hne : place ++ n :: rest ≠ place ++ [name] := by simp [hn]
      rw [if_neg hne]
      simp [nodeAt, put, get?_modifyEntries_below hentries, get?_append, hentries, FileTree.entries,
        Entries.get?_put, Ne.symm hn]
  · have hne : q ≠ place ++ [name] := by
      rintro rfl
      exact hq ⟨name, List.prefix_refl _⟩
    rw [if_neg hne]
    exact nodeAt_modifyEntries fun n hprefix => hq ⟨n, hprefix⟩

end FileTree

end PluginWorkshop
