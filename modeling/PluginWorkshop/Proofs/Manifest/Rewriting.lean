import PluginWorkshop.Proofs.Manifest.Toggling

/-!
# The text that a round leaves

Once a package with its file was added to a manifest and removed again, the text of the manifest is
known to the last character (`Round.source_after`): it is the document without the entries for the
file (`unlisted`), laid out anew (`laidOut`). The members `require` and `autoload` are printed, since
both saves find them changed, and every other member has the text it had at the start, which the
second save finds in the text of the first one. Laying out a text that was laid out changes nothing
(`laidOut_laidOut`), and the document is what it was before unless the file was listed already or an
empty list of files stood there (`Round.same_iff`).
-/

namespace PluginWorkshop

open Text

namespace Manifest

open Json (Readable Same)

variable {file package constraint : String} {document : Members}

/-! ## The document without a file -/

/-- The section `autoload` without a file, and without its list of files where that is empty
then. -/
def withoutFile (file : String) (autoload : Members) : Members :=
  match Members.get? "files" autoload with
  | some (.array files) =>
    if (filesWithout file files).isEmpty then Members.remove "files" autoload
    else Members.put "files" (.array (filesWithout file files)) autoload
  | _ => autoload

/-- The document with a file listed no longer. -/
def unlisted (file : String) (document : Members) : Members :=
  match Members.get? "autoload" document with
  | some (.object autoload) => Members.put "autoload" (.object (withoutFile file autoload)) document
  | _ => document

theorem removeAutoloadFile_document (manifest : Manifest) (file : String) :
    (manifest.removeAutoloadFile file).2.document = unlisted file manifest.document := by
  cases hautoload : Members.get? "autoload" manifest.document with
  | none => simp [removeAutoloadFile, unlisted, hautoload]
  | some v =>
    cases v with
    | object autoload =>
      have hput := Members.put_of_get? hautoload
      cases hfiles : Members.get? "files" autoload with
      | none => simp [removeAutoloadFile, unlisted, withoutFile, hautoload, hfiles, hput]
      | some w =>
        cases w with
        | array files =>
          simp only [removeAutoloadFile, unlisted, withoutFile, hautoload, hfiles]
          rfl
        | _ => simp [removeAutoloadFile, unlisted, withoutFile, hautoload, hfiles, hput]
    | _ => simp [removeAutoloadFile, unlisted, hautoload]

theorem removeAutoloadFile_loaded (manifest : Manifest) (file : String) :
    (manifest.removeAutoloadFile file).2.loaded = manifest.loaded := by
  unfold removeAutoloadFile
  split
  · split <;> rfl
  · rfl

theorem removeAutoloadFile_source (manifest : Manifest) (file : String) :
    (manifest.removeAutoloadFile file).2.source = manifest.source := by
  unfold removeAutoloadFile
  split
  · split <;> rfl
  · rfl

theorem keys_unlisted (file : String) (document : Members) :
    (unlisted file document).keys = document.keys := by
  unfold unlisted
  split
  · next autoload hautoload =>
    exact Members.keys_put_of_mem _ (Members.mem_keys_of_mem (Members.mem_of_get? hautoload))
  · rfl

theorem get?_unlisted {autoload : Members}
    (hautoload : Members.get? "autoload" document = some (.object autoload)) (key : String) :
    Members.get? key (unlisted file document) =
      if "autoload" = key then some (.object (withoutFile file autoload))
      else Members.get? key document := by
  simp only [unlisted, hautoload, Members.get?_put]

theorem filesWithout_filesWithout (file : String) (files : List Json) :
    filesWithout file (filesWithout file files) = filesWithout file files := by
  simp [filesWithout]

theorem withoutFile_withoutFile (file : String) (autoload : Members) :
    withoutFile file (withoutFile file autoload) = withoutFile file autoload := by
  cases hfiles : Members.get? "files" autoload with
  | none => simp [withoutFile, hfiles]
  | some v =>
    cases v with
    | array files =>
      by_cases hempty : (filesWithout file files).isEmpty = true
      · simp [withoutFile, hfiles, hempty, Members.get?_remove]
      · simp [withoutFile, hfiles, hempty, Members.get?_put, filesWithout_filesWithout,
          Members.put_put]
    | _ => simp [withoutFile, hfiles]

/-- Once a file is listed no longer, there is nothing more to remove. -/
theorem unlisted_unlisted (file : String) (document : Members) :
    unlisted file (unlisted file document) = unlisted file document := by
  cases hautoload : Members.get? "autoload" document with
  | none => simp [unlisted, hautoload]
  | some v =>
    cases v with
    | object autoload =>
      simp [unlisted, hautoload, Members.get?_put, withoutFile_withoutFile, Members.put_put]
    | _ => simp [unlisted, hautoload]

theorem isText_string (file : String) : isText file (.string file) = true := by
  simp [isText, Json.text?]

theorem any_filesWith (file : String) (files? : Option (List Json)) :
    (filesWith file files?).any (isText file) = true := by
  cases files? with
  | none => simp [filesWith, isText_string]
  | some files =>
    rw [filesWith]
    split
    · assumption
    · simp [isText_string]

theorem filesWithout_filesWith_some (file : String) (files : List Json) :
    filesWithout file (filesWith file (some files)) = filesWithout file files := by
  rw [filesWith]
  split
  · rfl
  · simp [filesWithout, isText_string]

/-- A file that was added is taken away without a trace, except where it was listed already or an
empty list stood there. -/
theorem withoutFile_filesWith {autoload : Members} {files? : Option (List Json)}
    (hfiles : Members.get? "files" autoload = files?.map .array) :
    withoutFile file (Members.put "files" (.array (filesWith file files?)) autoload) =
      withoutFile file autoload := by
  cases files? with
  | none =>
    have hnil : filesWithout file (filesWith file none) = [] := by
      simp [filesWith, filesWithout, isText_string]
    have hnone : Members.get? "files" autoload = none := hfiles
    simp [withoutFile, Members.get?_put, hnil, hnone, Members.remove_put,
      Members.remove_of_notMem (Members.get?_eq_none_iff.mp hnone)]
  | some files =>
    have hsome : Members.get? "files" autoload = some (.array files) := hfiles
    simp [withoutFile, Members.get?_put, filesWithout_filesWith_some, hsome, Members.remove_put,
      Members.put_put]

/-! ## Sections that changed -/

theorem isSome_get?_of_same {xs ys : Members} (hxs : xs.keys.Nodup) (hys : ys.keys.Nodup)
    (h : Same (.object xs) (.object ys)) (key : String) :
    (Members.get? key xs).isSome = (Members.get? key ys).isSome := by
  have hrel := (Json.same_object_iff_get? hxs hys).mp h key
  generalize Members.get? key xs = x, Members.get? key ys = y at hrel
  cases hrel <;> rfl

theorem length_eq_of_same {xs ys : Members} (hxs : xs.keys.Nodup) (hys : ys.keys.Nodup)
    (h : Same (.object xs) (.object ys)) {key : String} {items items' : List Json}
    (hitems : Members.get? key xs = some (.array items))
    (hitems' : Members.get? key ys = some (.array items')) : items.length = items'.length := by
  have hrel := (Json.same_object_iff_get? hxs hys).mp h key
  obtain ⟨found, hfound, hsame⟩ := exists_array_of_rel hrel hitems'
  obtain rfl : found = items := by simpa [hitems, eq_comm] using hfound
  exact hsame.length_eq

theorem not_same_of_get? {xs ys : Members} (hxs : xs.keys.Nodup) (hys : ys.keys.Nodup)
    (key : String) {v w : Json} (hv : Members.get? key xs = some v) (hw : Members.get? key ys = some w)
    (h : ¬ Same v w) : (Json.object xs).same (.object ys) = false := by
  rw [← Bool.not_eq_true]
  intro hsame
  have hrel := (Json.same_object_iff_get? hxs hys).mp hsame key
  rw [hv, hw] at hrel
  cases hrel with
  | some hsame => exact h hsame

/-- The requirements with and without a package are not the same. -/
theorem not_same_put {required : Members} (hrequired : required.keys.Nodup)
    (hfresh : package ∉ required.keys) (v : Json) :
    ¬ Same (.object required) (.object (Members.put package v required)) ∧
      ¬ Same (.object (Members.put package v required)) (.object required) := by
  have hput : (Members.keys (Members.put package v required)).Nodup :=
    Members.nodup_put v hrequired
  have hnone := Members.get?_eq_none_iff.mpr hfresh
  constructor <;> intro h
  · have hsome := isSome_get?_of_same hrequired hput h package
    simp [hnone, Members.get?_put] at hsome
  · have hsome := isSome_get?_of_same hput hrequired h package
    simp [hnone, Members.get?_put] at hsome

/-- A list of files with a file is either the list that was there or not the same. -/
theorem put_filesWith_of_same {autoload : Members} (hautoload : autoload.keys.Nodup)
    {files? : Option (List Json)} (hfiles : Members.get? "files" autoload = files?.map .array)
    (h : Same (.object autoload)
      (.object (Members.put "files" (.array (filesWith file files?)) autoload))) :
    Members.put "files" (.array (filesWith file files?)) autoload = autoload := by
  have hnodup : (Members.keys
      (Members.put "files" (.array (filesWith file files?)) autoload)).Nodup :=
    Members.nodup_put _ hautoload
  have hput : Members.get? "files" (Members.put "files" (.array (filesWith file files?)) autoload) =
      some (.array (filesWith file files?)) := by
    rw [Members.get?_put, if_pos rfl]
  cases files? with
  | none =>
    have hsome := isSome_get?_of_same hautoload hnodup h "files"
    rw [hfiles, hput] at hsome
    cases hsome
  | some files =>
    have hlength := length_eq_of_same hautoload hnodup h hfiles hput
    rw [filesWith] at hlength ⊢
    split at hlength
    · next hlisted => rw [if_pos hlisted, Members.put_of_get? hfiles]
    · simp at hlength

/-- The section with a file and the section without it are not the same. -/
theorem not_same_withoutFile {autoload : Members} (hautoload : autoload.keys.Nodup)
    {files : List Json} (hfiles : Members.get? "files" autoload = some (.array files))
    (hlisted : files.any (isText file) = true) :
    ¬ Same (.object autoload) (.object (withoutFile file autoload)) := by
  intro h
  rw [withoutFile, hfiles] at h
  dsimp only at h
  split at h
  · have hsome := isSome_get?_of_same hautoload (Members.nodup_remove "files" hautoload) h "files"
    rw [hfiles, Members.get?_remove, if_pos rfl] at hsome
    cases hsome
  · have hlength := length_eq_of_same hautoload (Members.nodup_put _ hautoload) h hfiles
      (by rw [Members.get?_put, if_pos rfl])
    obtain ⟨entry, hentry, htext⟩ := List.any_eq_true.mp hlisted
    have hlt : (filesWithout file files).length < files.length :=
      List.length_filter_lt_length_iff_exists.mpr ⟨entry, hentry, by simpa using htext⟩
    omega

/-- The section is the same without a file only if the file was not listed and the list was not
empty. -/
theorem of_same_withoutFile {autoload : Members} (hautoload : autoload.keys.Nodup)
    {files? : Option (List Json)} (hfiles : Members.get? "files" autoload = files?.map .array)
    (h : Same (.object autoload) (.object (withoutFile file autoload))) :
    ∀ files, files? = some files → files ≠ [] ∧ files.any (isText file) = false := by
  rintro files rfl
  refine ⟨?_, Bool.eq_false_iff.mpr fun hlisted =>
    not_same_withoutFile hautoload hfiles hlisted h⟩
  rintro rfl
  have hremoved : withoutFile file autoload = Members.remove "files" autoload := by
    rw [withoutFile, hfiles]
    rfl
  rw [hremoved] at h
  have hsome := isSome_get?_of_same hautoload (Members.nodup_remove "files" hautoload) h "files"
  rw [hfiles, Members.get?_remove, if_pos rfl] at hsome
  cases hsome

theorem withoutFile_of_unlisted {autoload : Members} {files? : Option (List Json)}
    (hfiles : Members.get? "files" autoload = files?.map .array)
    (h : ∀ files, files? = some files → files ≠ [] ∧ files.any (isText file) = false) :
    withoutFile file autoload = autoload := by
  cases files? with
  | none => simp [withoutFile, hfiles]
  | some files =>
    obtain ⟨hne, hunlisted⟩ := h files rfl
    have hkept : filesWithout file files = files := by
      rw [filesWithout, List.filter_eq_self]
      simpa using hunlisted
    simp only [withoutFile, hfiles, Option.map_some, hkept, List.isEmpty_iff, hne, if_false]
    exact Members.put_of_get? hfiles

/-! ## A text laid out anew -/

/-- The members of a manifest that adding and removing a package changes. -/
def IsSection (key : String) : Prop := key = "require" ∨ key = "autoload"

instance (key : String) : Decidable (IsSection key) :=
  inferInstanceAs (Decidable (key = "require" ∨ key = "autoload"))

/-- The text of a value in the layout of a text: the sections are printed, and every other member
has the text it has there. -/
def memberIn (text : String) (m : String × Json) : List Char :=
  if IsSection m.1 then (Layout.of text).printed m.2 else Json.sourceOf text m.1

/-- A document in the layout of a text, one member to a line. -/
def laidOut (text : String) (document : Members) : String :=
  (Layout.of text).write document (memberIn text)

example : laidOut "\x7b\r\n  \"name\" : \"a\\/b\", \"require\":\x7b\"c\":[1]\x7d\x7d"
    [("name", .string "a/b"), ("require", .object [("c", .array [.number "1"])])] =
    "\x7b\r\n  \"name\": \"a\\/b\",\r\n  \"require\": \x7b\r\n    \"c\": [\r\n      1\r\n    ]\r\n  \x7d\r\n\x7d" := by
  decide +kernel

/-- The texts fit a document that has the members of the text apart from the sections. -/
theorem fits_memberIn {text : String} {loaded : Members}
    (hparse : Json.parse text = .ok (.object loaded))
    (hreadable : Readable Json.maxDepth (.object document)) (hne : document ≠ [])
    (hothers : ∀ m ∈ document, ¬ IsSection m.1 → Members.get? m.1 loaded = some m.2) :
    (Layout.of text).Fits document (memberIn text) := by
  refine ⟨hne, hreadable.1, fun m hm => ?_, fun hlf m hm => ?_⟩
  all_goals rw [memberIn]
  all_goals split
  · exact Layout.isSource_printed _ _ (hreadable.2 m hm)
  · next hsection => exact (Json.lookup_sourceOf hparse (hothers m hm hsection)).2.1
  · exact Layout.unbroken_printed hlf (hreadable.2 m hm)
  · next hsection =>
    obtain ⟨-, hsource, hinfix⟩ := Json.lookup_sourceOf hparse (hothers m hm hsection)
    exact Json.unbroken_of_isInfix hinfix hlf hsource.getLast?_ne_return

/-- Laying out what is laid out changes nothing. -/
theorem laidOut_laidOut {text : String} (h : (Layout.of text).Fits document (memberIn text)) :
    laidOut (laidOut text document) document = laidOut text document := by
  have hlayout : Layout.of (laidOut text document) = Layout.of text := h.of_write
  rw [laidOut, hlayout]
  refine Layout.write_congr _ fun m hm => ?_
  rw [memberIn, hlayout, laidOut, h.sourceOf_write hm]
  split
  · next hsection => rw [memberIn, if_pos hsection]
  · rfl

theorem of_parse_eq_ok {path : Path} {text : String} {manifest : Manifest}
    (h : parse path text = .ok manifest) : Json.parse text = .ok (.object manifest.document) ∧
      manifest.loaded = manifest.document ∧ manifest.source = text := by
  obtain ⟨document, hdocument, rfl⟩ := of_parse h
  exact ⟨hdocument, rfl, rfl⟩

namespace Sound

variable {manifest : Manifest} (h : manifest.Sound)
include h

/-- The texts that a manifest is saved with fit its document if every value is the one that was
loaded or not the same as that. -/
theorem fits_textOf (hne : manifest.document ≠ [])
    (hexact : ∀ m ∈ manifest.document, ∀ v, Members.get? m.1 manifest.loaded = some v →
      v.same m.2 = true → v = m.2) :
    (Layout.of manifest.source).Fits manifest.document manifest.textOf := by
  have hcases : ∀ m ∈ manifest.document,
      (Members.get? m.1 manifest.loaded = some m.2 ∧
        manifest.textOf m = Json.sourceOf manifest.source m.1) ∨
      manifest.textOf m = (Layout.of manifest.source).printed m.2 := by
    intro m hm
    by_cases hkept : ∃ v, Members.get? m.1 manifest.loaded = some v ∧ v.same m.2 = true
    · obtain ⟨v, hv, hsame⟩ := hkept
      exact Or.inl ⟨hexact m hm v hv hsame ▸ hv, h.textOf_of_same hv hsame⟩
    · exact Or.inr (h.textOf_of_changed (by simpa using hkept))
  refine ⟨hne, h.readable.1, fun m hm => ?_, fun hlf m hm => ?_⟩
  all_goals rcases hcases m hm with ⟨hv, htext⟩ | htext <;> rw [htext]
  · exact (Json.lookup_sourceOf h.loaded hv).2.1
  · exact Layout.isSource_printed _ _ (h.readable.2 m hm)
  · obtain ⟨-, hsource, hinfix⟩ := Json.lookup_sourceOf h.loaded hv
    exact Json.unbroken_of_isInfix hinfix hlf hsource.getLast?_ne_return
  · exact Layout.unbroken_printed hlf (h.readable.2 m hm)

/-- A manifest of which the sections changed and nothing else is saved laid out anew. -/
theorem render_eq_laidOut
    (hchanged : (Json.object manifest.document).same (.object manifest.loaded) = false)
    (hsections : ∀ m ∈ manifest.document, IsSection m.1 →
      ∀ v, Members.get? m.1 manifest.loaded = some v → v.same m.2 = false)
    (hothers : ∀ m ∈ manifest.document, ¬ IsSection m.1 →
      Members.get? m.1 manifest.loaded = some m.2) :
    manifest.render = laidOut manifest.source manifest.document := by
  rw [h.render_of_changed hchanged, laidOut]
  refine Layout.write_congr _ fun m hm => ?_
  rw [memberIn]
  split
  · next hsection => exact h.textOf_of_changed (hsections m hm hsection)
  · next hsection =>
    exact h.textOf_of_same (hothers m hm hsection) (Json.same_refl (h.readable.2 m hm))

end Sound

/-! ## The text after the round -/

namespace Round

variable {path : Path} {before after : Manifest}
  (round : Round package constraint file path before after)
include round

theorem loaded_before : before.loaded = before.document := (of_parse_eq_ok round.read_before).2.1

theorem nodup_required : (Members.keys round.required).Nodup :=
  (round.before_sound.readable_get? round.get?_require).1

theorem nodup_autoload : (Members.keys round.autoload).Nodup :=
  (round.before_sound.readable_get? round.get?_autoload).1

/-- What stands under each key once the package and its file are added. -/
theorem get?_added : ∃ files? : Option (List Json),
    Members.get? "files" round.autoload = files?.map .array ∧
    ∀ key, Members.get? key round.added.document =
      if "autoload" = key then
        some (.object (Members.put "files" (.array (filesWith file files?)) round.autoload))
      else if "require" = key then
        some (.object (Members.put package (.string constraint) round.required))
      else Members.get? key before.document := by
  obtain ⟨files?, hfiles, hadded⟩ := round.exists_added
  refine ⟨files?, hfiles, fun key => ?_⟩
  rw [hadded, get?_withObject, get?_withObject]

theorem keys_added : round.added.document.keys = before.document.keys := by
  obtain ⟨files?, -, hadded⟩ := round.exists_added
  have hrequire := Members.mem_keys_of_mem (Members.mem_of_get? round.get?_require)
  have hautoload := Members.mem_keys_of_mem (Members.mem_of_get? round.get?_autoload)
  rw [hadded, withObject, withObject, Members.keys_put_of_mem, Members.keys_put_of_mem _ hrequire]
  rwa [Members.keys_put_of_mem _ hrequire]

theorem added_from_before : round.added.loaded = before.document ∧
    round.added.source = before.source := by
  obtain ⟨files?, -, hadded⟩ := round.exists_added
  rw [hadded]
  exact ⟨round.loaded_before, rfl⟩

theorem added_ne_nil : round.added.document ≠ [] := by
  intro hnil
  have hkeys := round.keys_added
  rw [hnil] at hkeys
  have hmem := Members.mem_keys_of_mem (Members.mem_of_get? round.get?_require)
  rw [← hkeys] at hmem
  cases hmem

/-- The requirements in the middle of the round differ from those before it and after it. -/
theorem not_same_required : ¬ Same (.object round.required)
      (.object (Members.put package (.string constraint) round.required)) ∧
    ¬ Same (.object (Members.put package (.string constraint) round.required))
      (.object round.required) :=
  not_same_put round.nodup_required round.package_notMem _

/-- The texts that the manifest is saved with in the middle of the round fit its document. -/
theorem fits_added :
    (Layout.of before.source).Fits round.added.document round.added.textOf := by
  obtain ⟨files?, hfiles, hget⟩ := round.get?_added
  obtain ⟨hloaded, hsource⟩ := round.added_from_before
  rw [← hsource]
  refine round.added_sound.fits_textOf round.added_ne_nil fun m hm v hv hsame => ?_
  have hm := Members.get?_of_mem round.added_sound.readable.1 hm
  rw [hloaded] at hv
  rw [hget] at hm
  split_ifs at hm with hautoload hrequire
  · rw [← hautoload, round.get?_autoload, Option.some.injEq] at hv
    rw [Option.some.injEq] at hm
    subst hv
    rw [← hm] at hsame ⊢
    rw [put_filesWith_of_same round.nodup_autoload hfiles hsame]
  · rw [← hrequire, round.get?_require, Option.some.injEq] at hv
    rw [Option.some.injEq] at hm
    subst hv
    rw [← hm] at hsame
    exact absurd hsame round.not_same_required.1
  · exact Option.some.inj (hv.symm.trans hm)

/-- The text in the middle of the round. -/
theorem added_render : round.added.render =
    (Layout.of before.source).write round.added.document round.added.textOf := by
  obtain ⟨files?, -, hget⟩ := round.get?_added
  obtain ⟨hloaded, hsource⟩ := round.added_from_before
  rw [← hsource]
  refine round.added_sound.render_of_changed ?_
  rw [hloaded]
  exact not_same_of_get? round.added_sound.readable.1 round.before_sound.readable.1 "require"
    (by rw [hget, if_neg (by decide), if_pos rfl]) round.get?_require round.not_same_required.2

/-- The manifest in the middle of the round is read as it was saved. -/
theorem saved_document : round.saved.document = round.added.document ∧
    round.saved.loaded = round.added.document := by
  obtain ⟨hparse, hloaded, -⟩ := of_parse_eq_ok round.read_saved
  rw [round.added_render, round.fits_added.parse_write] at hparse
  have hdocument : round.added.document = round.saved.document := by simpa using hparse
  exact ⟨hdocument.symm, by rw [hloaded, hdocument]⟩

theorem saved_source : round.saved.source = round.added.render :=
  (of_parse_eq_ok round.read_saved).2.2

theorem layout_saved : Layout.of round.saved.source = Layout.of before.source := by
  rw [round.saved_source, round.added_render, round.fits_added.of_write]

/-- Apart from the sections, the text in the middle of the round has the members of the text before
it. -/
theorem sourceOf_saved {m : String × Json} (hm : m ∈ before.document) (hsection : ¬ IsSection m.1) :
    Json.sourceOf round.saved.source m.1 = Json.sourceOf before.source m.1 := by
  obtain ⟨files?, -, hget⟩ := round.get?_added
  obtain ⟨hloaded, hsource⟩ := round.added_from_before
  obtain ⟨hrequire, hautoload⟩ : m.1 ≠ "require" ∧ m.1 ≠ "autoload" := not_or.mp hsection
  have hv := Members.get?_of_mem round.before_sound.readable.1 hm
  have hv' : Members.get? m.1 round.added.document = some m.2 := by
    rw [hget, if_neg hautoload.symm, if_neg hrequire.symm, hv]
  have hadded : m ∈ round.added.document := Members.mem_of_get? hv'
  rw [round.saved_source, round.added_render, round.fits_added.sourceOf_write hadded,
    round.added_sound.textOf_of_same (v := m.2) (by rw [hloaded, hv])
      (Json.same_refl (round.before_sound.readable.2 m hm)), hsource]

/-- The second half of the round removes what the first one added. -/
theorem dropped_eq : round.dropped = round.saved.withObject "require" round.required := by
  obtain ⟨files?, -, hget⟩ := round.get?_added
  have hrequired : Members.get? "require" round.saved.document =
      some (.object (Members.put package (.string constraint) round.required)) := by
    rw [round.saved_document.1, hget, if_neg (by decide), if_pos rfl]
  have honly : ∀ key ∈ Members.keys (Members.put package (.string constraint) round.required),
      equalIgnoringCase key package = true → key = package := by
    intro key hkey hequal
    obtain ⟨m, hm, rfl⟩ := List.mem_map.mp hkey
    rcases Members.mem_put hm with rfl | hm
    · rfl
    · rw [round.not_equalIgnoringCase m.1 (Members.mem_keys_of_mem hm)] at hequal
      cases hequal
  rw [of_removeDependency? hrequired honly round.drop, Members.remove_put,
    Members.remove_of_notMem round.package_notMem]

/-- The document that is saved at the end of the round. -/
theorem final_document : (round.dropped.removeAutoloadFile file).2.document =
    unlisted file before.document := by
  obtain ⟨files?, hfiles, hget⟩ := round.get?_added
  have hdropped : ∀ key, Members.get? key round.dropped.document =
      if "require" = key then some (.object round.required)
      else Members.get? key round.added.document := by
    intro key
    rw [round.dropped_eq, get?_withObject, round.saved_document.1]
  have hautoload : Members.get? "autoload" round.dropped.document = some (.object
      (Members.put "files" (.array (filesWith file files?)) round.autoload)) := by
    rw [hdropped, if_neg (by decide), hget, if_pos rfl]
  have hkeys : round.dropped.document.keys = before.document.keys := by
    have hrequire := Members.mem_keys_of_mem (Members.mem_of_get? round.get?_require)
    rw [← round.keys_added] at hrequire
    rw [round.dropped_eq, withObject, round.saved_document.1, Members.keys_put_of_mem _ hrequire,
      round.keys_added]
  rw [removeAutoloadFile_document]
  refine Members.ext_get? (by rw [keys_unlisted, keys_unlisted, hkeys])
    (by rw [keys_unlisted, hkeys]; exact round.before_sound.readable.1) fun key => ?_
  rw [get?_unlisted hautoload, get?_unlisted round.get?_autoload, withoutFile_filesWith hfiles,
    hdropped, hget]
  split_ifs with hkey hkey'
  · rfl
  · rw [← hkey', round.get?_require]
  · rfl

/-- What stands under each key at the end of the round. -/
theorem get?_final (key : String) : Members.get? key (unlisted file before.document) =
    if "autoload" = key then some (.object (withoutFile file round.autoload))
    else Members.get? key before.document :=
  get?_unlisted round.get?_autoload key

theorem final_sound : (round.dropped.removeAutoloadFile file).2.Sound :=
  round.dropped_sound.removeAutoloadFile file

theorem readable_final : Readable Json.maxDepth (.object (unlisted file before.document)) := by
  rw [← round.final_document]
  exact round.final_sound.readable

/-- A member at the end of the round that is no section was there before it. -/
theorem mem_before {m : String × Json} (hm : m ∈ unlisted file before.document)
    (hsection : ¬ IsSection m.1) : m ∈ before.document := by
  obtain ⟨-, hautoload⟩ : m.1 ≠ "require" ∧ m.1 ≠ "autoload" := not_or.mp hsection
  have hv := Members.get?_of_mem round.readable_final.1 hm
  rw [round.get?_final, if_neg hautoload.symm] at hv
  exact Members.mem_of_get? hv

/-- Both sections are found changed at the end of the round. -/
theorem section_changed {m : String × Json} (hm : m ∈ unlisted file before.document)
    (hsection : IsSection m.1) {v : Json} (hv : Members.get? m.1 round.added.document = some v) :
    v.same m.2 = false := by
  obtain ⟨files?, hfiles, hget⟩ := round.get?_added
  have hm := Members.get?_of_mem round.readable_final.1 hm
  rw [round.get?_final] at hm
  rw [hget] at hv
  rw [← Bool.not_eq_true]
  intro hsame
  rcases hsection with hkey | hkey
  · rw [hkey, if_neg (by decide), round.get?_require, Option.some.injEq] at hm
    rw [hkey, if_neg (by decide), if_pos rfl, Option.some.injEq] at hv
    rw [← hm, ← hv] at hsame
    exact round.not_same_required.2 hsame
  · rw [hkey, if_pos rfl, Option.some.injEq] at hm
    rw [hkey, if_pos rfl, Option.some.injEq] at hv
    rw [← hm, ← hv, ← withoutFile_filesWith hfiles] at hsame
    exact not_same_withoutFile (Members.nodup_put _ round.nodup_autoload)
      (by rw [Members.get?_put, if_pos rfl]) (any_filesWith file files?) hsame

/-- At the end of the round the document is laid out in the text that the first half left. -/
theorem final_render : (round.dropped.removeAutoloadFile file).2.render =
    laidOut round.saved.source (unlisted file before.document) := by
  obtain ⟨files?, -, hget⟩ := round.get?_added
  have hloaded : (round.dropped.removeAutoloadFile file).2.loaded = round.added.document := by
    rw [removeAutoloadFile_loaded, round.dropped_eq, withObject, round.saved_document.2]
  have hsource : (round.dropped.removeAutoloadFile file).2.source = round.saved.source := by
    rw [removeAutoloadFile_source, round.dropped_eq, withObject]
  rw [← hsource, ← round.final_document]
  refine round.final_sound.render_eq_laidOut ?_ ?_ ?_ <;> rw [hloaded, round.final_document]
  · refine not_same_of_get? round.readable_final.1 round.added_sound.readable.1 "require" ?_ ?_
      round.not_same_required.1
    · rw [round.get?_final, if_neg (by decide), round.get?_require]
    · rw [hget, if_neg (by decide), if_pos rfl]
  · intro m hm hsection v hv
    exact round.section_changed hm hsection hv
  · intro m hm hsection
    have hbefore := Members.get?_of_mem round.before_sound.readable.1 (round.mem_before hm hsection)
    obtain ⟨hrequire, hautoload⟩ : m.1 ≠ "require" ∧ m.1 ≠ "autoload" := not_or.mp hsection
    rw [hget, if_neg hautoload.symm, if_neg hrequire.symm, hbefore]

theorem parse_before : Json.parse before.source = .ok (.object before.document) := by
  obtain ⟨hparse, -, hsource⟩ := of_parse_eq_ok round.read_before
  rw [hsource, hparse]

theorem fits_final :
    (Layout.of before.source).Fits (unlisted file before.document) (memberIn before.source) := by
  refine fits_memberIn round.parse_before round.readable_final ?_ fun m hm hsection =>
    Members.get?_of_mem round.before_sound.readable.1 (round.mem_before hm hsection)
  intro hnil
  have hkeys := keys_unlisted file before.document
  have hmem := Members.mem_keys_of_mem (Members.mem_of_get? round.get?_require)
  rw [← hkeys, hnil] at hmem
  cases hmem

/-- The text after the round: the document without the file, laid out in the text from before. -/
theorem source_after : after.source = laidOut before.source (unlisted file before.document) := by
  rw [(of_parse_eq_ok round.read_after).2.2, round.final_render, laidOut, laidOut,
    round.layout_saved]
  refine Layout.write_congr _ fun m hm => ?_
  rw [memberIn, memberIn, round.layout_saved]
  split
  · rfl
  · next hsection => exact round.sourceOf_saved (round.mem_before hm hsection) hsection

/-- The document after the round, with its members in the order they had before. -/
theorem document_after : after.document = unlisted file before.document := by
  obtain ⟨hparse, -, hsource⟩ := of_parse_eq_ok round.read_after
  rw [← hsource, round.source_after, laidOut, round.fits_final.parse_write] at hparse
  simpa [eq_comm] using hparse

/-- The round gives back the text that it started from if and only if it leaves the document as it
is and the text has the layout it is saved in. -/
theorem source_after_eq_iff : after.source = before.source ↔
    unlisted file before.document = before.document ∧
      laidOut before.source before.document = before.source := by
  rw [round.source_after]
  constructor
  · intro h
    have hparse := round.fits_final.parse_write
    rw [← laidOut, h, round.parse_before] at hparse
    have hdocument : before.document = unlisted file before.document := by simpa using hparse
    rw [← hdocument] at h
    exact ⟨hdocument.symm, h⟩
  · rintro ⟨hdocument, h⟩
    rw [hdocument, h]

/-- The document is the one from before, unless the file was listed already or an empty list of
files stood there. -/
theorem same_iff : Same (.object after.document) (.object before.document) ↔
    ∀ files, before.fileList? = some files → files ≠ [] ∧ files.any (isText file) = false := by
  obtain ⟨files?, hfiles, -⟩ := round.exists_added
  have hreadable := round.readable_final
  rw [fileList?_eq round.get?_autoload hfiles, round.document_after]
  constructor
  · intro hsame
    have hfinal : Members.get? "autoload" (unlisted file before.document) =
        some (.object (withoutFile file round.autoload)) := by
      rw [round.get?_final, if_pos rfl]
    have hrel := (Json.same_object_iff_get? hreadable.1 round.before_sound.readable.1).mp hsame
      "autoload"
    rw [hfinal, round.get?_autoload] at hrel
    cases hrel with
    | some hsame =>
      have hsame' : Same (.object round.autoload) (.object (withoutFile file round.autoload)) :=
        Json.same_symm (@Json.Readable.get? (Json.maxDepth - 1) _ _ _ hreadable hfinal)
          (round.before_sound.readable_get? round.get?_autoload) hsame
      exact of_same_withoutFile round.nodup_autoload hfiles hsame'
  · intro h
    have hdocument : unlisted file before.document = before.document := by
      rw [unlisted, round.get?_autoload]
      dsimp only
      rw [withoutFile_of_unlisted hfiles h, Members.put_of_get? round.get?_autoload]
    rw [hdocument]
    exact Json.same_refl round.before_sound.readable

end Round

end Manifest

end PluginWorkshop
