import PluginWorkshop.Manifest.Mapping
import PluginWorkshop.Proofs.Manifest.Saving

/-!
# Requiring a package and requiring it no longer

A package is required together with a file that is loaded with the plugin, the manifest is saved and
read again, and both are taken back (`Round`). What each edit of a round does is said here, section
by section.
-/

namespace PluginWorkshop

open Text

namespace Json

/-- The values are the same document. -/
def Same (v w : Json) : Prop := same v w = true

theorem items?_eq_some_iff {v : Json} {items : List Json} :
    v.items? = some items ↔ v = .array items := by
  cases v <;> simp [items?]

theorem members?_eq_some_iff {v : Json} {members : Members} :
    v.members? = some members ↔ v = .object members := by
  cases v <;> simp [members?]

end Json

namespace Manifest

open Json (Same)

variable {manifest edited : Manifest} {package constraint file : String} {members : Members}

/-! ## Edits -/

theorem get?_withObject (manifest : Manifest) (key key' : String) (members : Members) :
    Members.get? key' (manifest.withObject key members).document =
      if key = key' then some (.object members) else Members.get? key' manifest.document :=
  Members.get?_put _ _ _ _

theorem objectUnder_of_get? {key : String}
    (h : Members.get? key manifest.document = some (.object members)) :
    manifest.objectUnder key = .ok members := by
  simp [objectUnder, h]

theorem insertDependency_eq_ok {required : Members}
    (hrequired : Members.get? "require" manifest.document = some (.object required)) :
    manifest.insertDependency package constraint = .ok (manifest.withObject "require"
      (Members.put package (.string constraint) required)) := by
  simp [insertDependency, objectUnder_of_get? hrequired, bind, Except.bind, pure, Except.pure]

/-- A package is required no longer by removing the one entry that bears its name. -/
theorem of_removeDependency? {required : Members} {old : Json}
    (hrequired : Members.get? "require" manifest.document = some (.object required))
    (honly : ∀ key ∈ required.keys, equalIgnoringCase key package = true → key = package)
    (h : manifest.removeDependency? package = some (old, edited)) :
    edited = manifest.withObject "require" (Members.remove package required) := by
  simp only [removeDependency?, dependency?, hrequired, Json.members?, Option.bind_eq_bind,
    Option.bind_some, Option.bind_eq_some_iff] at h
  obtain ⟨entry, hfind, hpair⟩ := h
  have hkey : entry.1 = package :=
    honly _ (Members.mem_keys_of_mem (List.mem_of_find?_eq_some hfind))
      (by simpa using List.find?_some hfind)
  simpa [hkey, eq_comm] using (Prod.mk.inj (Option.some.inj hpair)).2

/-- The files that are listed once a file is added. -/
def filesWith (file : String) : Option (List Json) → List Json
  | none => [.string file]
  | some files => if files.any (isText file) then files else files ++ [.string file]

theorem withObject_of_get? {key : String}
    (h : Members.get? key manifest.document = some (.object members)) :
    manifest.withObject key members = manifest := by
  rw [withObject, Members.put_of_get? h]

/-- Adding a file changes the list of files in the section `autoload` and nothing else. -/
theorem of_addAutoloadFile {autoload : Members} {added : Bool}
    (hautoload : Members.get? "autoload" manifest.document = some (.object autoload))
    (h : manifest.addAutoloadFile file = .ok (added, edited)) :
    ∃ files? : Option (List Json), Members.get? "files" autoload = files?.map .array ∧
      edited = manifest.withObject "autoload"
        (Members.put "files" (.array (filesWith file files?)) autoload) := by
  obtain ⟨_, hunder, files, hfiles, hedited⟩ := exists_of_addAutoloadFile h
  obtain rfl := Except.ok.inj ((objectUnder_of_get? hautoload).symm.trans hunder)
  rcases hfiles with hfiles | ⟨hnone, rfl⟩
  · refine ⟨some files, hfiles, ?_⟩
    obtain ⟨hlisted, -, rfl⟩ | ⟨hlisted, -, rfl⟩ := hedited
    · rw [filesWith, if_pos hlisted, Members.put_of_get? hfiles, withObject_of_get? hautoload]
    · rw [filesWith, if_neg (by simp [hlisted])]
  · obtain ⟨⟨⟩, -⟩ | ⟨-, -, rfl⟩ := hedited
    exact ⟨none, hnone, rfl⟩

/-- The files that are left once a file is removed. -/
def filesWithout (file : String) (files : List Json) : List Json := files.filter (!isText file ·)

/-! ## Sections that are the same -/

theorem exists_get?_of_rel {key : String} {xs ys : Members} {v : Json}
    (h : Option.Rel Same (Members.get? key xs) (Members.get? key ys))
    (hys : Members.get? key ys = some v) : ∃ v', Members.get? key xs = some v' ∧ Same v' v := by
  rw [hys] at h
  generalize Members.get? key xs = x at h
  cases h with
  | some hsame => exact ⟨_, rfl, hsame⟩

theorem exists_object_of_rel {key : String} {xs ys members : Members}
    (h : Option.Rel Same (Members.get? key xs) (Members.get? key ys))
    (hys : Members.get? key ys = some (.object members)) :
    ∃ members' : Members, Members.get? key xs = some (.object members') ∧
      Same (.object members') (.object members) := by
  obtain ⟨v, hxs, hsame⟩ := exists_get?_of_rel h hys
  cases v with
  | object members' => exact ⟨members', hxs, hsame⟩
  | _ => cases hsame

theorem exists_array_of_rel {key : String} {xs ys : Members} {items : List Json}
    (h : Option.Rel Same (Members.get? key xs) (Members.get? key ys))
    (hys : Members.get? key ys = some (.array items)) :
    ∃ items', Members.get? key xs = some (.array items') ∧ List.Forall₂ Same items' items := by
  obtain ⟨v, hxs, hsame⟩ := exists_get?_of_rel h hys
  cases v with
  | array items' => exact ⟨items', hxs, Json.same_array_iff.mp hsame⟩
  | _ => cases hsame

theorem fileList?_eq {autoload : Members} {files? : Option (List Json)}
    (hautoload : Members.get? "autoload" manifest.document = some (.object autoload))
    (hfiles : Members.get? "files" autoload = files?.map .array) :
    manifest.fileList? = files? := by
  simp only [fileList?, hautoload, hfiles, Json.members?, Option.bind_eq_bind, Option.bind_some]
  cases files? <;> rfl

theorem exists_required_of_hasDependency (h : manifest.hasDependency package = true) :
    ∃ required : Members, Members.get? "require" manifest.document = some (.object required) := by
  obtain ⟨entry, h⟩ := Option.isSome_iff_exists.mp h
  simp only [dependency?, Option.bind_eq_bind, Option.bind_eq_some_iff] at h
  obtain ⟨v, hv, required, hrequired, -⟩ := h
  cases v with
  | object members => exact ⟨members, hv⟩
  | _ => cases hrequired

theorem exists_autoload_of_namespaceMapping {root : Path} {mapping : NamespaceMapping}
    (h : manifest.namespaceMapping root = .ok mapping) :
    ∃ autoload : Members, Members.get? "autoload" manifest.document = some (.object autoload) := by
  unfold namespaceMapping at h
  split at h
  · cases h
  · next map hmap =>
    simp only [namespaceMap?, Option.bind_eq_bind, Option.bind_eq_some_iff] at hmap
    obtain ⟨v, hv, autoload, hautoload, -⟩ := hmap
    cases v with
    | object members => exact ⟨members, hv⟩
    | _ => cases hautoload

/-- No entry bears the name of a package that is not required, in whatever case. -/
theorem not_equalIgnoringCase_of_hasDependency {required : Members}
    (hrequired : Members.get? "require" manifest.document = some (.object required))
    (h : manifest.hasDependency package = false) :
    ∀ key ∈ required.keys, equalIgnoringCase key package = false := by
  intro key hkey
  obtain ⟨m, hm, rfl⟩ := List.mem_map.mp hkey
  simp only [hasDependency, dependency?, hrequired, Json.members?, Option.bind_eq_bind,
    Option.bind_some, Option.isSome_eq_false_iff, Option.isNone_iff_eq_none,
    List.find?_eq_none] at h
  simpa using h m hm

/-! ## The whole round -/

/-- A package with its file is added to `before`, which is saved and read again; then both are taken
back, and what is saved is read again as `after`. -/
structure Round (package constraint file : String) (path : Path) (before after : Manifest) where
  text : String
  read_before : parse path text = .ok before
  required : Members
  get?_require : Members.get? "require" before.document = some (.object required)
  autoload : Members
  get?_autoload : Members.get? "autoload" before.document = some (.object autoload)
  fresh : before.hasDependency package = false
  inserted : Manifest
  insert : before.insertDependency package constraint = .ok inserted
  wasAdded : Bool
  added : Manifest
  add : inserted.addAutoloadFile file = .ok (wasAdded, added)
  saved : Manifest
  read_saved : parse path added.render = .ok saved
  old : Json
  dropped : Manifest
  drop : saved.removeDependency? package = some (old, dropped)
  read_after : parse path (dropped.removeAutoloadFile file).2.render = .ok after

namespace Round

variable {path : Path} {before after : Manifest}
  (round : Round package constraint file path before after)
include round

theorem before_sound : before.Sound := sound_of_parse round.read_before

theorem added_sound : round.added.Sound :=
  (round.before_sound.insertDependency round.insert).addAutoloadFile round.add

theorem saved_sound : round.saved.Sound := sound_of_parse round.read_saved

theorem dropped_sound : round.dropped.Sound := round.saved_sound.removeDependency round.drop

theorem not_equalIgnoringCase :
    ∀ key ∈ round.required.keys, equalIgnoringCase key package = false :=
  not_equalIgnoringCase_of_hasDependency round.get?_require round.fresh

theorem package_notMem : package ∉ round.required.keys := fun h => by
  have hself : equalIgnoringCase package package = true := by simp [equalIgnoringCase]
  simp [round.not_equalIgnoringCase _ h] at hself

theorem inserted_eq : round.inserted = before.withObject "require"
    (Members.put package (.string constraint) round.required) :=
  Except.ok.inj (round.insert.symm.trans (insertDependency_eq_ok round.get?_require))

/-- The manifest that is saved in the middle of the round. -/
theorem exists_added : ∃ files? : Option (List Json),
    Members.get? "files" round.autoload = files?.map .array ∧
    round.added = (before.withObject "require"
      (Members.put package (.string constraint) round.required)).withObject "autoload"
        (Members.put "files" (.array (filesWith file files?)) round.autoload) := by
  have hadd := round.add
  rw [round.inserted_eq] at hadd
  exact of_addAutoloadFile (by rw [get?_withObject, if_neg (by decide), round.get?_autoload]) hadd

end Round

end Manifest

end PluginWorkshop
