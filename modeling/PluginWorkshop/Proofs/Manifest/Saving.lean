import PluginWorkshop.Proofs.Json.Equality
import PluginWorkshop.Proofs.Manifest.Layout

/-!
# Saving a manifest

What `Manifest.render` writes is read again as the document that the manifest holds, whatever
edits came before (`parse_render_run`). The edits keep `Sound`: the document is one that a text can
write, and no key at its top was lost or moved. A sound manifest is written in the layout of its
source, and the text of each of its members is printed or stands as it stood in the source
(`exists_isSource_textOf`), so that what is written is read back member by member (`parse_render`).
-/

namespace PluginWorkshop

open Text

namespace Json

variable {depth : Nat} {members : Members} {key : String}

theorem Readable.get? {v : Json} (h : Readable (depth + 1) (.object members))
    (hv : Members.get? key members = some v) : Readable depth v :=
  h.2 _ (Members.mem_of_get? hv)

theorem Readable.put {v : Json} (h : Readable (depth + 1) (.object members))
    (hv : Readable depth v) : Readable (depth + 1) (.object (Members.put key v members)) := by
  refine ⟨Members.nodup_put v h.1, fun m hm => ?_⟩
  rcases Members.mem_put hm with rfl | hm
  · exact hv
  · exact h.2 m hm

theorem Readable.remove (h : Readable (depth + 1) (.object members)) :
    Readable (depth + 1) (.object (Members.remove key members)) := by
  exact ⟨Members.nodup_remove key h.1, fun m hm => h.2 m (List.mem_of_mem_filter hm)⟩

theorem readable_empty : Readable (depth + 1) (.object []) := by
  simp [Readable]

theorem readable_string (s : String) : Readable depth (.string s) := by
  cases depth <;> trivial

end Json

namespace Manifest

open Json (Readable)

/-! ## Runs of edits -/

/-- A change of a manifest. -/
inductive Edit where
  | insertDependency (package constraint : String)
  | removeDependency (package : String)
  | addAutoloadFile (file : String)
  | removeAutoloadFile (file : String)
  deriving DecidableEq, Repr

/-- The manifest after a change, which stays as it is if the change fails. -/
def apply (manifest : Manifest) : Edit → Manifest
  | .insertDependency package constraint =>
    (manifest.insertDependency package constraint).toOption.getD manifest
  | .removeDependency package => ((manifest.removeDependency? package).map Prod.snd).getD manifest
  | .addAutoloadFile file => ((manifest.addAutoloadFile file).toOption.map Prod.snd).getD manifest
  | .removeAutoloadFile file => (manifest.removeAutoloadFile file).2

/-- The manifest after changes one after the other. -/
def run (manifest : Manifest) (edits : List Edit) : Manifest := edits.foldl apply manifest

/-! ## What an edit keeps -/

/-- The manifest remembers the text it was read from, and its document can be written. -/
structure Sound (manifest : Manifest) : Prop where
  loaded : Json.parse manifest.source = .ok (.object manifest.loaded)
  indent : manifest.indent = indentOf manifest.source
  readable : Readable Json.maxDepth (.object manifest.document)
  /-- No key at the top is lost or moved. -/
  keys : manifest.loaded.keys <+: manifest.document.keys

theorem of_parse {path : Path} {text : String} {manifest : Manifest}
    (h : parse path text = .ok manifest) :
    ∃ document, Json.parse text = .ok (.object document) ∧
      manifest = ⟨path, document, document, text, indentOf text⟩ := by
  unfold parse at h
  split at h
  · simp at h
  · next document hd => exact ⟨document, hd, by simpa using h.symm⟩
  · simp at h

theorem parse_of_json {text : String} {document : Members}
    (h : Json.parse text = .ok (.object document)) (path : Path) :
    parse path text = .ok ⟨path, document, document, text, indentOf text⟩ := by
  simp [parse, h]

theorem readable_of_parse {text : String} {v : Json} (h : Json.parse text = .ok v) :
    Readable Json.maxDepth v := by
  obtain ⟨rest, -, hread⟩ := Json.of_wholeText h
  exact Json.readable_of_value hread

theorem sound_of_parse {path : Path} {text : String} {manifest : Manifest}
    (h : parse path text = .ok manifest) : manifest.Sound := by
  obtain ⟨document, hd, rfl⟩ := of_parse h
  exact ⟨hd, rfl, readable_of_parse hd, List.prefix_refl _⟩

section

variable {manifest edited : Manifest} {package constraint file : String}

theorem parse_path {path : Path} {text : String} (h : parse path text = .ok manifest) :
    manifest.path = path := by
  obtain ⟨document, -, rfl⟩ := of_parse h
  rfl

/-- A package is required by an entry in the section for it. -/
theorem exists_of_insertDependency
    (h : manifest.insertDependency package constraint = .ok edited) :
    ∃ required, manifest.objectUnder "require" = .ok required ∧
      edited = manifest.withObject "require" (Members.put package (.string constraint) required) := by
  rw [insertDependency] at h
  cases hrequired : manifest.objectUnder "require" with
  | error e => simp [hrequired, bind, Except.bind] at h
  | ok required =>
    rw [hrequired] at h
    exact ⟨required, rfl, (Except.ok.inj h).symm⟩

/-- A file is listed already, or it is added at the end of the list. -/
theorem exists_of_addAutoloadFile {added : Bool}
    (h : manifest.addAutoloadFile file = .ok (added, edited)) :
    ∃ autoload, manifest.objectUnder "autoload" = .ok autoload ∧ ∃ files,
      (Members.get? "files" autoload = some (.array files) ∨
        Members.get? "files" autoload = none ∧ files = []) ∧
      (files.any (isText file) = true ∧ added = false ∧ edited = manifest ∨
        files.any (isText file) = false ∧ added = true ∧ edited = manifest.withObject "autoload"
          (Members.put "files" (.array (files ++ [.string file])) autoload)) := by
  rw [addAutoloadFile] at h
  cases hautoload : manifest.objectUnder "autoload" with
  | error e => simp [hautoload, bind, Except.bind] at h
  | ok autoload =>
    simp only [hautoload, bind, Except.bind, pure, Except.pure] at h
    refine ⟨autoload, rfl, ?_⟩
    split at h
    · next hnone =>
      obtain ⟨rfl, rfl⟩ := Prod.mk.inj (Except.ok.inj h)
      exact ⟨[], Or.inr ⟨hnone, rfl⟩, Or.inr ⟨rfl, rfl, rfl⟩⟩
    · next files hfiles =>
      refine ⟨files, Or.inl hfiles, ?_⟩
      split_ifs at h with hlisted
      · obtain ⟨rfl, rfl⟩ := Prod.mk.inj (Except.ok.inj h)
        exact Or.inl ⟨hlisted, rfl, rfl⟩
      · obtain ⟨rfl, rfl⟩ := Prod.mk.inj (Except.ok.inj h)
        exact Or.inr ⟨by simpa using hlisted, rfl, rfl⟩
    · cases h

theorem insertDependency_path (h : manifest.insertDependency package constraint = .ok edited) :
    edited.path = manifest.path := by
  obtain ⟨required, -, rfl⟩ := exists_of_insertDependency h
  rfl

theorem addAutoloadFile_path {added : Bool}
    (h : manifest.addAutoloadFile file = .ok (added, edited)) : edited.path = manifest.path := by
  obtain ⟨autoload, -, files, -, ⟨-, -, rfl⟩ | ⟨-, -, rfl⟩⟩ := exists_of_addAutoloadFile h <;> rfl

theorem removeDependency?_path {constraint : Json}
    (h : manifest.removeDependency? package = some (constraint, edited)) :
    edited.path = manifest.path := by
  simp only [removeDependency?, Option.bind_eq_bind, Option.bind_eq_some_iff] at h
  obtain ⟨_, -, _, -, _, -, hpair⟩ := h
  cases hpair
  rfl

theorem removeAutoloadFile_path (manifest : Manifest) (file : String) :
    (manifest.removeAutoloadFile file).2.path = manifest.path := by
  unfold removeAutoloadFile
  split
  · split <;> rfl
  · rfl

end

namespace Sound

variable {manifest : Manifest} (h : manifest.Sound)
include h

theorem readable_get? {key : String} {v : Json}
    (hv : Members.get? key manifest.document = some v) : Readable (Json.maxDepth - 1) v :=
  @Json.Readable.get? (Json.maxDepth - 1) _ _ _ h.readable hv

theorem withObject (key : String) {members : Members}
    (hmembers : Readable (Json.maxDepth - 1) (.object members)) :
    (manifest.withObject key members).Sound := by
  refine ⟨h.loaded, h.indent,
    @Json.Readable.put (Json.maxDepth - 1) _ _ _ h.readable hmembers, h.keys.trans ?_⟩
  rw [Manifest.withObject]
  by_cases hk : key ∈ Members.keys manifest.document
  · exact (Members.keys_put_of_mem (.object members) hk).symm ▸ List.prefix_refl _
  · rw [Members.put_of_notMem _ hk, Members.keys_append]
    exact List.prefix_append _ _

theorem readable_objectUnder {key : String} {members : Members}
    (hmembers : manifest.objectUnder key = .ok members) :
    Readable (Json.maxDepth - 1) (.object members) := by
  unfold Manifest.objectUnder at hmembers
  split at hmembers
  · obtain rfl : [] = members := by simpa using hmembers
    exact Json.readable_empty
  · next found hfound =>
    obtain rfl : found = members := by simpa using hmembers
    exact h.readable_get? hfound
  · simp at hmembers

theorem insertDependency {package constraint : String} {edited : Manifest}
    (hedit : manifest.insertDependency package constraint = .ok edited) : edited.Sound := by
  obtain ⟨required, hrequired, rfl⟩ := exists_of_insertDependency hedit
  exact h.withObject _ (@Json.Readable.put (Json.maxDepth - 2) _ _ _
    (h.readable_objectUnder hrequired) (Json.readable_string _))

theorem removeDependency {package : String} {constraint : Json} {edited : Manifest}
    (hedit : manifest.removeDependency? package = some (constraint, edited)) : edited.Sound := by
  simp only [removeDependency?, Option.bind_eq_bind, Option.bind_eq_some_iff] at hedit
  obtain ⟨entry, -, v, hv, required, hrequired, hpair⟩ := hedit
  obtain ⟨-, rfl⟩ : entry.2 = constraint ∧
      manifest.withObject "require" (Members.remove entry.1 required) = edited := by
    simpa using hpair
  cases v with
  | object members =>
    obtain rfl : members = required := by simpa [Json.members?] using hrequired
    exact h.withObject _ (@Json.Readable.remove (Json.maxDepth - 2) _ _ (h.readable_get? hv))
  | _ => simp [Json.members?] at hrequired

/-- Another list under `files` keeps the manifest sound if its items can be written. -/
theorem withFiles {autoload : Members} (hautoload : Readable (Json.maxDepth - 1) (.object autoload))
    {files : List Json} (hfiles : ∀ entry ∈ files, Readable (Json.maxDepth - 3) entry) :
    (manifest.withObject "autoload" (Members.put "files" (.array files) autoload)).Sound := by
  have harray : Readable (Json.maxDepth - 2) (.array files) := hfiles
  exact h.withObject _ (@Json.Readable.put (Json.maxDepth - 2) _ _ _ hautoload harray)

omit h in
theorem readable_entry {autoload : Members} {files : List Json}
    (hautoload : Readable (Json.maxDepth - 1) (.object autoload))
    (hfiles : Members.get? "files" autoload = some (.array files)) :
    ∀ entry ∈ files, Readable (Json.maxDepth - 3) entry :=
  @Json.Readable.get? (Json.maxDepth - 2) _ _ _ hautoload hfiles

theorem addAutoloadFile {file : String} {added : Bool} {edited : Manifest}
    (hedit : manifest.addAutoloadFile file = .ok (added, edited)) : edited.Sound := by
  obtain ⟨autoload, hunder, files, hfiles, ⟨-, -, rfl⟩ | ⟨-, -, rfl⟩⟩ :=
    exists_of_addAutoloadFile hedit
  · exact h
  have hautoload := h.readable_objectUnder hunder
  refine h.withFiles hautoload fun entry hentry => ?_
  rcases List.mem_append.mp hentry with hentry | hentry
  · rcases hfiles with hfiles | ⟨-, rfl⟩
    · exact readable_entry hautoload hfiles entry hentry
    · cases hentry
  · rw [List.mem_singleton.mp hentry]
    exact Json.readable_string _

theorem removeAutoloadFile (file : String) : (manifest.removeAutoloadFile file).2.Sound := by
  unfold Manifest.removeAutoloadFile
  split
  · next autoload ha =>
    have hautoload := h.readable_get? ha
    split
    · next files hfiles =>
      dsimp only
      split
      · exact h.withObject _ (@Json.Readable.remove (Json.maxDepth - 2) _ _ hautoload)
      · exact h.withFiles hautoload fun entry hentry =>
          readable_entry hautoload hfiles entry (List.mem_of_mem_filter hentry)
    · exact h
  · exact h

theorem apply (edit : Edit) : (manifest.apply edit).Sound := by
  cases edit with
  | insertDependency package constraint =>
    rw [Manifest.apply]
    cases hedit : manifest.insertDependency package constraint with
    | error e => exact h
    | ok edited => exact h.insertDependency hedit
  | removeDependency package =>
    rw [Manifest.apply]
    cases hedit : manifest.removeDependency? package with
    | none => exact h
    | some edited => exact h.removeDependency hedit
  | addAutoloadFile file =>
    rw [Manifest.apply]
    cases hedit : manifest.addAutoloadFile file with
    | error e => exact h
    | ok edited => exact h.addAutoloadFile hedit
  | removeAutoloadFile file => exact h.removeAutoloadFile file

theorem run (edits : List Edit) : (manifest.run edits).Sound := by
  induction edits generalizing manifest with
  | nil => exact h
  | cons edit edits ih => exact ih (h.apply edit)

end Sound

/-! ## Reading what was written -/

/-- The text that the value of a member is saved with. -/
def textOf (manifest : Manifest) (m : String × Json) : List Char :=
  manifest.memberText (Json.memberSources manifest.source).reverse m.1 m.2

namespace Sound

variable {manifest : Manifest} (h : manifest.Sound)
include h

/-- A value that is the same as the one that was loaded keeps its text. -/
theorem textOf_of_same {m : String × Json} {v : Json}
    (hv : Members.get? m.1 manifest.loaded = some v) (hsame : v.same m.2 = true) :
    manifest.textOf m = Json.sourceOf manifest.source m.1 := by
  obtain ⟨hlookup, -⟩ := Json.lookup_sourceOf h.loaded hv
  simp [textOf, memberText, hlookup, hv, hsame]

/-- A value that is another one than what was loaded is printed. -/
theorem textOf_of_changed {m : String × Json}
    (hv : ∀ v, Members.get? m.1 manifest.loaded = some v → v.same m.2 = false) :
    manifest.textOf m = (Layout.of manifest.source).printed m.2 := by
  have hprinted : manifest.printedValue m.2 = (Layout.of manifest.source).printed m.2 := by
    rw [printedValue, h.indent]
    rfl
  rw [textOf, memberText]
  split
  · next source before _ hbefore => simp [hv before hbefore, hprinted]
  · exact hprinted

/-- The text of a member is read as a value that is the same as the member's. -/
theorem exists_isSource_textOf {m : String × Json} (hm : m ∈ manifest.document) :
    ∃ v, v.same m.2 = true ∧
      Json.IsSource (Json.maxDepth - 1) (m.1, v, manifest.textOf m) := by
  have hreadable : Readable (Json.maxDepth - 1) m.2 := h.readable.2 m hm
  by_cases hkept : ∃ v, Members.get? m.1 manifest.loaded = some v ∧ v.same m.2 = true
  · obtain ⟨v, hv, hsame⟩ := hkept
    rw [h.textOf_of_same hv hsame]
    exact ⟨v, hsame, (Json.lookup_sourceOf h.loaded hv).2.1⟩
  · rw [h.textOf_of_changed (by simpa using hkept)]
    exact ⟨m.2, Json.same_refl hreadable, Layout.isSource_printed _ _ hreadable⟩

/-- A manifest that changed is written in the layout of the text it was read from. -/
theorem render_of_changed
    (hchanged : (Json.object manifest.document).same (.object manifest.loaded) = false) :
    manifest.render = (Layout.of manifest.source).write manifest.document manifest.textOf := by
  rw [render, hchanged, h.indent]
  simp only [Bool.false_eq_true, if_false, List.isEmpty_map]
  rfl

/-- What a sound manifest writes is read as its document again. -/
theorem parse_render (path : Path) :
    ∃ saved, parse path manifest.render = .ok saved ∧
      (Json.object saved.document).same (.object manifest.document) = true ∧
      saved.document.keys = manifest.document.keys := by
  cases hsame : (Json.object manifest.document).same (.object manifest.loaded) with
  | true =>
    rw [render, if_pos hsame]
    refine ⟨_, parse_of_json h.loaded path, ?_, ?_⟩
    · exact Json.same_symm h.readable (readable_of_parse h.loaded) hsame
    · refine h.keys.eq_of_length ?_
      simpa [Members.keys] using (Json.same_object_iff.mp hsame).1.symm
  | false =>
    choose! value hvalue hsource using
      fun m (hm : m ∈ manifest.document) => h.exists_isSource_textOf hm
    rw [h.render_of_changed hsame]
    refine ⟨_, parse_of_json (Layout.parse_write _ h.readable.1 hsource) path, ?_,
      by simp [Members.keys]⟩
    refine Json.same_object_iff.mpr ⟨by simp, fun m hm => ?_⟩
    obtain ⟨m', hm', rfl⟩ := List.mem_map.mp hm
    exact ⟨m'.2, Members.get?_of_mem h.readable.1 hm', hvalue m' hm'⟩

end Sound

end Manifest

end PluginWorkshop
