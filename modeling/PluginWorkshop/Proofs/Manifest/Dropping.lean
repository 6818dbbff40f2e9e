import PluginWorkshop.Proofs.Manifest.Repeating

/-!
# Dropping a package

A package is dropped from a manifest by removing the first key that names it up to the case of its
letters (`exists_key_of_removeDependency?`), and its file from the list of files. The manifest is
read again as it was saved (`Drop.document_after`), so the package is required still if and only if
another key names it too (`Drop.hasDependency_after_iff`).
-/

namespace PluginWorkshop

open Text (equalIgnoringCase)

namespace Members

variable {key : String} {members : Members}

theorem mem_keys_remove {k : String} : k ∈ (remove key members).keys ↔ k ∈ members.keys ∧ k ≠ key := by
  simp only [keys, remove, List.mem_map, List.mem_filter, bne_iff_ne]
  constructor
  · rintro ⟨m, ⟨hm, hne⟩, rfl⟩
    exact ⟨⟨m, hm, rfl⟩, hne⟩
  · rintro ⟨⟨m, hm, rfl⟩, hne⟩
    exact ⟨m, ⟨hm, hne⟩, rfl⟩

end Members

namespace Manifest

open Json (Same)

variable {package file : String} {manifest edited : Manifest}

theorem exists_key_of_removeDependency? {required : Members} {old : Json}
    (hrequired : Members.get? "require" manifest.document = some (.object required))
    (h : manifest.removeDependency? package = some (old, edited)) :
    ∃ key ∈ required.keys, equalIgnoringCase key package = true ∧
      edited = manifest.withObject "require" (Members.remove key required) := by
  simp only [removeDependency?, dependency?, hrequired, Json.members?, Option.bind_eq_bind,
    Option.bind_some, Option.bind_eq_some_iff] at h
  obtain ⟨entry, hfind, hpair⟩ := h
  exact ⟨entry.1, Members.mem_keys_of_mem (List.mem_of_find?_eq_some hfind),
    by simpa using List.find?_some hfind, (Prod.mk.inj (Option.some.inj hpair)).2.symm⟩

/-- Without one of its keys an object is another one. -/
theorem not_same_remove {members : Members} (hmembers : members.keys.Nodup) {key : String}
    (hkey : key ∈ members.keys) :
    ¬ Same (.object members) (.object (Members.remove key members)) ∧
      ¬ Same (.object (Members.remove key members)) (.object members) := by
  have hremove := Members.nodup_remove key hmembers
  have hnone : Members.get? key (Members.remove key members) = none := by
    rw [Members.get?_remove, if_pos rfl]
  have hsome : (Members.get? key members).isSome = true := by
    rw [Option.isSome_iff_ne_none, ne_eq, Members.get?_eq_none_iff, not_not]
    exact hkey
  constructor <;> intro h
  · have := isSome_get?_of_same hmembers hremove h key
    simp [hnone, hsome] at this
  · have := isSome_get?_of_same hremove hmembers h key
    simp [hnone, hsome] at this

/-- The section without a file is either the section that was there or not the same. -/
theorem withoutFile_of_same {autoload : Members} (hautoload : autoload.keys.Nodup)
    (h : Same (.object autoload) (.object (withoutFile file autoload))) :
    withoutFile file autoload = autoload := by
  cases hfiles : Members.get? "files" autoload with
  | none => simp [withoutFile, hfiles]
  | some v =>
    cases v with
    | array files =>
      have hfiles' : Members.get? "files" autoload = (some files).map .array := hfiles
      exact withoutFile_of_unlisted hfiles' (of_same_withoutFile hautoload hfiles' h)
    | _ => simp [withoutFile, hfiles]

/-! ## Saving without the package -/

/-- A package and its file are taken from `before`, and what is saved is read again as `after`. -/
structure Drop (package file : String) (path : Path) (before after : Manifest) where
  text : String
  read_before : parse path text = .ok before
  required : Members
  get?_require : Members.get? "require" before.document = some (.object required)
  autoload : Members
  get?_autoload : Members.get? "autoload" before.document = some (.object autoload)
  old : Json
  dropped : Manifest
  drop : before.removeDependency? package = some (old, dropped)
  /-- The key that is removed. -/
  key : String
  key_mem : key ∈ required.keys
  key_names : equalIgnoringCase key package = true
  dropped_eq : dropped = before.withObject "require" (Members.remove key required)
  read_after : parse path (dropped.removeAutoloadFile file).2.render = .ok after

namespace Drop

variable {path : Path} {before after : Manifest} (d : Drop package file path before after)
include d

theorem before_sound : before.Sound := sound_of_parse d.read_before

theorem final_sound : (d.dropped.removeAutoloadFile file).2.Sound :=
  (d.before_sound.removeDependency d.drop).removeAutoloadFile file

/-- What stands under each key once the package and its file are taken away. -/
theorem get?_final (key : String) :
    Members.get? key (d.dropped.removeAutoloadFile file).2.document =
      if "autoload" = key then some (.object (withoutFile file d.autoload))
      else if "require" = key then some (.object (Members.remove d.key d.required))
      else Members.get? key before.document := by
  have hdropped : ∀ key, Members.get? key d.dropped.document =
      if "require" = key then some (.object (Members.remove d.key d.required))
      else Members.get? key before.document := by
    intro key
    rw [d.dropped_eq, get?_withObject]
  have hautoload : Members.get? "autoload" d.dropped.document = some (.object d.autoload) := by
    rw [hdropped, if_neg (by decide), d.get?_autoload]
  rw [removeAutoloadFile_document, get?_unlisted hautoload, hdropped]

theorem nodup_required : (Members.keys d.required).Nodup :=
  (d.before_sound.readable_get? d.get?_require).1

theorem nodup_autoload : (Members.keys d.autoload).Nodup :=
  (d.before_sound.readable_get? d.get?_autoload).1

theorem final_from_before : (d.dropped.removeAutoloadFile file).2.loaded = before.document ∧
    (d.dropped.removeAutoloadFile file).2.source = before.source := by
  rw [removeAutoloadFile_loaded, removeAutoloadFile_source, d.dropped_eq]
  exact ⟨(of_parse_eq_ok d.read_before).2.1, rfl⟩

theorem fits_final : (Layout.of before.source).Fits (d.dropped.removeAutoloadFile file).2.document
    (d.dropped.removeAutoloadFile file).2.textOf := by
  obtain ⟨hloaded, hsource⟩ := d.final_from_before
  have hne : (d.dropped.removeAutoloadFile file).2.document ≠ [] := by
    intro hnil
    have hget := d.get?_final "require"
    rw [hnil, if_neg (by decide), if_pos rfl] at hget
    cases hget
  rw [← hsource]
  refine d.final_sound.fits_textOf hne fun m hm v hv hsame => ?_
  have hm := Members.get?_of_mem d.final_sound.readable.1 hm
  rw [hloaded] at hv
  rw [d.get?_final] at hm
  split_ifs at hm with hautoload hrequire
  · rw [← hautoload, d.get?_autoload, Option.some.injEq] at hv
    rw [Option.some.injEq] at hm
    subst hv
    rw [← hm] at hsame ⊢
    rw [withoutFile_of_same d.nodup_autoload hsame]
  · rw [← hrequire, d.get?_require, Option.some.injEq] at hv
    rw [Option.some.injEq] at hm
    subst hv
    rw [← hm] at hsame
    exact absurd hsame (not_same_remove d.nodup_required d.key_mem).1
  · exact Option.some.inj (hv.symm.trans hm)

/-- The manifest without the package is read as it was saved. -/
theorem document_after : after.document = (d.dropped.removeAutoloadFile file).2.document := by
  obtain ⟨hloaded, hsource⟩ := d.final_from_before
  have hrender : (d.dropped.removeAutoloadFile file).2.render = (Layout.of before.source).write
      (d.dropped.removeAutoloadFile file).2.document
      (d.dropped.removeAutoloadFile file).2.textOf := by
    rw [← hsource]
    refine d.final_sound.render_of_changed ?_
    rw [hloaded]
    exact not_same_of_get? d.final_sound.readable.1 d.before_sound.readable.1 "require"
      (by rw [d.get?_final, if_neg (by decide), if_pos rfl]) d.get?_require
      (not_same_remove d.nodup_required d.key_mem).2
  have hparse := (of_parse_eq_ok d.read_after).1
  rw [hrender, d.fits_final.parse_write] at hparse
  simpa using hparse.symm

theorem get?_after_require : Members.get? "require" after.document =
    some (.object (Members.remove d.key d.required)) := by
  rw [d.document_after, d.get?_final, if_neg (by decide), if_pos rfl]

/-- Whatever is named by another key than the one removed is required afterwards. -/
theorem hasDependency_after_iff (other : String) : after.hasDependency other = true ↔
    ∃ key ∈ d.required.keys, key ≠ d.key ∧ equalIgnoringCase key other = true := by
  rw [hasDependency_iff d.get?_after_require]
  simp only [Members.mem_keys_remove, and_assoc]

/-- The package is required no longer if and only if one key alone names it. -/
theorem hasDependency_after_eq_false_iff : after.hasDependency package = false ↔
    ∃! key, key ∈ d.required.keys ∧ equalIgnoringCase key package = true := by
  rw [← Bool.not_eq_true, d.hasDependency_after_iff]
  constructor
  · intro h
    refine ⟨d.key, ⟨d.key_mem, d.key_names⟩, ?_⟩
    rintro key ⟨hkey, hnames⟩
    by_contra hne
    exact h ⟨key, hkey, hne, hnames⟩
  · rintro ⟨only, -, honly⟩ ⟨key, hkey, hne, hnames⟩
    exact hne ((honly key ⟨hkey, hnames⟩).trans (honly d.key ⟨d.key_mem, d.key_names⟩).symm)

/-- Other packages are required afterwards as before. -/
theorem hasDependency_after {other : String} (hother : equalIgnoringCase other package = false)
    (h : before.hasDependency other = true) : after.hasDependency other = true := by
  obtain ⟨key, hkey, hnames⟩ := (hasDependency_iff d.get?_require).mp h
  refine (d.hasDependency_after_iff other).mpr ⟨key, hkey, ?_, hnames⟩
  rintro rfl
  have hkeyNames := d.key_names
  simp only [equalIgnoringCase, beq_iff_eq, beq_eq_false_iff_ne] at hnames hkeyNames hother
  exact hother (hnames.symm.trans hkeyNames)

/-- The namespace is mapped afterwards as before. -/
theorem namespaceMapping_after {root : Path} {mapping : NamespaceMapping}
    (h : before.namespaceMapping root = .ok mapping) :
    after.namespaceMapping root = .ok mapping := by
  refine namespaceMapping_congr d.get?_autoload ?_ (find?_withoutFile file d.autoload) h
  rw [d.document_after, d.get?_final, if_pos rfl]

end Drop

/-- What is taken from a manifest and saved makes a `Drop`. -/
theorem exists_drop {path : Path} {text : String} {before dropped : Manifest} {old : Json}
    {required autoload : Members} (hread : parse path text = .ok before)
    (hrequired : Members.get? "require" before.document = some (.object required))
    (hautoload : Members.get? "autoload" before.document = some (.object autoload))
    (hdrop : before.removeDependency? package = some (old, dropped)) (file : String) :
    ∃ after, ∃ d : Drop package file path before after, d.dropped = dropped := by
  obtain ⟨key, hkey, hnames, hdropped⟩ := exists_key_of_removeDependency? hrequired hdrop
  have hfinal := ((sound_of_parse hread).removeDependency hdrop).removeAutoloadFile file
  obtain ⟨after, hafter, -⟩ := hfinal.parse_render path
  exact ⟨after, ⟨text, hread, required, hrequired, autoload, hautoload, old, dropped, hdrop, key, hkey,
    hnames, hdropped, hafter⟩, rfl⟩

end Manifest

end PluginWorkshop
