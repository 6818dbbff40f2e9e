import PluginWorkshop.Proofs.Machine.Actions
import PluginWorkshop.Proofs.Manifest.Toggling

/-!
# What an edit reports and what it changes

An edit changes the document in place: it makes the object or the list that it needs on its way to the
entry, and may fail behind that (`Edit.inPlace`). The document is then what `Manifest.apply` says, after
a failure as well (`inPlace_eq`). An edit that reports a change touches one section, of which all else is
kept in its order (`Edit.Does`); one that reports none leaves the document alone, except where a file
that is not listed is removed from an empty list, which is dropped (`apply_reports`).
-/

namespace PluginWorkshop

open Text

/-! ## Objects that differ in one member -/

namespace Members

/-- Beside the member under one key the objects are the same, in the same order. The member keeps its
place, is new at the end, or is gone. -/
structure DiffersAt (key : String) (before after : Members) : Prop where
  others : remove key after = remove key before
  keys : after.keys = before.keys ∨ key ∉ before.keys ∧ after.keys = before.keys ++ [key] ∨
    after.keys = before.keys.filter (· != key)

theorem differsAt_put (key : String) (v : Json) (members : Members) :
    DiffersAt key members (put key v members) := by
  refine ⟨remove_put key v members, ?_⟩
  by_cases hkey : key ∈ members.keys
  · exact Or.inl (keys_put_of_mem v hkey)
  · exact Or.inr (Or.inl ⟨hkey, by rw [put_of_notMem v hkey, keys_append, keys_cons, keys_nil]⟩)

theorem differsAt_remove (key : String) (members : Members) :
    DiffersAt key members (remove key members) := by
  refine ⟨?_, Or.inr (Or.inr ?_)⟩
  · rw [remove, remove, List.filter_filter]
    simp
  · rw [remove, keys, keys, List.filter_map]
    rfl

end Members

namespace Manifest

/-! ## Edits in place -/

/-- A change of an object in place. -/
abbrev Change := EStateM PluginError Members

/-- The value under a key, which is made if it is missing. -/
def entry (key : String) (made : Json) : Change Json := fun members =>
  match Members.get? key members with
  | some value => .ok value members
  | none => .ok made (Members.put key made members)

/-- Changes the object under a key, which is made if it is missing; what the change has done stays if it
fails. -/
def within (path : Path) (key : String) (change : Change α) : Change α := do
  match ← entry key (.object []) with
  | .object members =>
    match change members with
    | .ok result members =>
      modify (Members.put key (.object members))
      return result
    | .error e members =>
      modify (Members.put key (.object members))
      throw e
  | _ => throw (.manifestMalformed path (key ++ " is not an object") none)

/-- Appends a text to the list under the key `files`, which is made if it is missing, unless it is there;
says whether it was not. -/
def appendFile (path : Path) (file : String) : Change Bool := do
  match ← entry "files" (.array []) with
  | .array files =>
    if files.any (isText file) then return false
    modify (Members.put "files" (.array (files ++ [.string file])))
    return true
  | _ => throw (.manifestMalformed path "autoload.files is not an array" none)

/-- Takes a text out of the list under the key `files`, and drops the list if it is empty then; says
whether it has become shorter. -/
def dropFile (file : String) : Change Bool := do
  match Members.get? "files" (← get) with
  | some (.array files) =>
    let kept := files.filter (!isText file ·)
    modify (Members.put "files" (.array kept))
    if kept.isEmpty then modify (Members.remove "files")
    return kept.length != files.length
  | _ => return false

/-- Takes out the entry under the first key that names a package; says whether there was one. -/
def dropPackage (package : String) : Change Bool := do
  match (← get).find? fun (name, _) => equalIgnoringCase name package with
  | some (key, _) =>
    let constraint := Members.get? key (← get)
    modify (Members.remove key)
    return constraint.isSome
  | none => return false

/-- Changes the object under a key, if there is one. -/
def ifObject (path : Path) (key : String) (change : Change Bool) : Change Bool := do
  match Members.get? key (← get) with
  | some (.object _) => within path key change
  | _ => return false

/-- Makes an edit in place and says whether it reports a change. -/
def Edit.inPlace (path : Path) : Edit → Change Bool
  | .insertDependency package constraint => within path "require" do
    modify (Members.put package (.string constraint))
    return true
  | .removeDependency package => ifObject path "require" (dropPackage package)
  | .addAutoloadFile file => within path "autoload" (appendFile path file)
  | .removeAutoloadFile file => ifObject path "autoload" (dropFile file)

variable {manifest : Manifest} {key : String} {members : Members} {path : Path}

theorem entry_of_get? {made value : Json} (h : Members.get? key members = some value) :
    entry key made members = .ok value members := by
  rw [entry, h]

theorem entry_of_missing {made : Json} (h : Members.get? key members = none) :
    entry key made members = .ok made (Members.put key made members) := by
  rw [entry, h]

/-- What a change of the object under a key does to the document. -/
theorem within_of_objectUnder (h : manifest.objectUnder key = .ok members) (path : Path)
    (change : Change α) : within path key change manifest.document = match change members with
      | .ok result members => .ok result (manifest.withObject key members).document
      | .error e members => .error e (manifest.withObject key members).document := by
  rw [objectUnder] at h
  split at h
  · next hget =>
    cases h
    rw [within, bind_of_ok (entry_of_missing hget)]
    dsimp only
    cases change [] with
    | ok result members =>
      exact congrArg (EStateM.Result.ok result) (Members.put_put key (.object members) _ _)
    | error e members =>
      exact congrArg (EStateM.Result.error e) (Members.put_put key (.object members) _ _)
  · next hget =>
    cases h
    rw [within, bind_of_ok (entry_of_get? hget)]
    dsimp only
    cases change members <;> rfl
  · cases h

theorem within_of_error {e : PluginError} (h : manifest.objectUnder key = .error e)
    (change : Change α) :
    within manifest.path key change manifest.document = .error e manifest.document := by
  rw [objectUnder] at h
  split at h
  · cases h
  · cases h
  · next value hne hget =>
    cases h
    rw [within, bind_of_ok (entry_of_get? hget)]
    cases value with
    | object members => exact absurd rfl (hne members)
    | _ => rfl

/-- A file is appended to the list, unless it is listed. -/
theorem appendFile_apply (path : Path) (file : String) (autoload : Members) :
    appendFile path file autoload = match Members.get? "files" autoload with
      | none => .ok true (Members.put "files" (.array [.string file]) autoload)
      | some (.array files) =>
        if files.any (isText file) then .ok false autoload
        else .ok true (Members.put "files" (.array (files ++ [.string file])) autoload)
      | some _ => .error (.manifestMalformed path "autoload.files is not an array" none) autoload := by
  rw [appendFile]
  cases hget : Members.get? "files" autoload with
  | none =>
    rw [bind_of_ok (entry_of_missing hget)]
    exact congrArg (EStateM.Result.ok true) (Members.put_put "files" _ _ _)
  | some value =>
    rw [bind_of_ok (entry_of_get? hget)]
    cases value with
    | array files =>
      dsimp only
      split_ifs <;> rfl
    | _ => rfl

theorem length_filter_bne_length {p : α → Bool} (items : List α) :
    ((items.filter (!p ·)).length != items.length) = items.any p := by
  rw [Bool.eq_iff_iff, bne_iff_ne, ne_eq, List.length_filter_eq_length_iff, List.any_eq_true]
  simp

/-- A file is taken out of the list, and a list that is empty then is dropped. -/
theorem dropFile_apply (file : String) (autoload : Members) :
    dropFile file autoload = match Members.get? "files" autoload with
      | some (.array files) =>
        let kept := files.filter (!isText file ·)
        .ok (files.any (isText file))
          (if kept.isEmpty then Members.remove "files" autoload
          else Members.put "files" (.array kept) autoload)
      | _ => .ok false autoload := by
  rw [dropFile, get_bind]
  cases hget : Members.get? "files" autoload with
  | none => rfl
  | some value =>
    cases value with
    | array files =>
      dsimp only
      rw [← length_filter_bne_length]
      split_ifs with hempty
      · exact congrArg (EStateM.Result.ok _) (Members.remove_put "files" _ _)
      · rfl
    | _ => rfl

theorem dropPackage_apply (package : String) (required : Members) :
    dropPackage package required =
      match required.find? (fun (name, _) => equalIgnoringCase name package) with
      | some (key, _) => .ok true (Members.remove key required)
      | none => .ok false required := by
  rw [dropPackage, get_bind]
  cases hfind : required.find? (fun (name, _) => equalIgnoringCase name package) with
  | none => rfl
  | some m =>
    have hmem := Members.mem_keys_of_mem (List.mem_of_find?_eq_some hfind)
    have hget : (Members.get? m.1 required).isSome = true := by
      rw [Option.isSome_iff_ne_none, Ne, Members.get?_eq_none_iff, not_not]
      exact hmem
    exact congrArg (EStateM.Result.ok · (Members.remove m.1 required)) hget

/-! ## What an edit reports -/

/-- What an edit reports: whether it has changed something, or an error. -/
def answer (manifest : Manifest) : Edit → Except PluginError Bool
  | .insertDependency package constraint =>
    (manifest.insertDependency package constraint).map fun _ => true
  | .removeDependency package => .ok (manifest.removeDependency? package).isSome
  | .addAutoloadFile file => (manifest.addAutoloadFile file).map Prod.fst
  | .removeAutoloadFile file => .ok (manifest.removeAutoloadFile file).1

/-- The outcome of an edit with the document that it leaves behind. -/
def result (manifest : Manifest) (edit : Edit) : EStateM.Result PluginError Members Bool :=
  match manifest.answer edit with
  | .ok reported => .ok reported (manifest.apply edit).document
  | .error e => .error e (manifest.apply edit).document

/-- The object under a key is read from the document. -/
theorem objectUnder_eq_ok_iff : manifest.objectUnder key = .ok members ↔
    Members.get? key manifest.document = some (.object members) ∨
      Members.get? key manifest.document = none ∧ members = [] := by
  rw [objectUnder]
  cases Members.get? key manifest.document with
  | none => simp [eq_comm]
  | some value => cases value <;> simp [eq_comm]

theorem inPlace_insertDependency (package constraint : String) :
    (Edit.insertDependency package constraint).inPlace manifest.path manifest.document =
      manifest.result (.insertDependency package constraint) := by
  cases h : manifest.objectUnder "require" with
  | error e =>
    have hinsert : manifest.insertDependency package constraint = .error e := by
      rw [insertDependency, h]
      rfl
    rw [Edit.inPlace, within_of_error h, result, answer, apply, hinsert]
    rfl
  | ok required =>
    have hinsert : manifest.insertDependency package constraint = .ok (manifest.withObject "require"
        (Members.put package (.string constraint) required)) := by
      rw [insertDependency, h]
      rfl
    rw [Edit.inPlace, within_of_objectUnder h, result, answer, apply, hinsert]
    rfl

theorem inPlace_removeDependency (package : String) :
    (Edit.removeDependency package).inPlace manifest.path manifest.document =
      manifest.result (.removeDependency package) := by
  rw [Edit.inPlace, ifObject, get_bind, result, answer, apply,
    removeDependency?, dependency?]
  cases h : Members.get? "require" manifest.document with
  | none => rfl
  | some value =>
    cases value with
    | object required =>
      dsimp only
      rw [within_of_objectUnder (objectUnder_of_get? h), dropPackage_apply]
      simp only [Option.bind_eq_bind, Option.bind_some, Json.members?]
      cases required.find? fun (name, _) => equalIgnoringCase name package with
      | none => simp [withObject_of_get? h]
      | some m => rfl
    | _ => rfl

theorem inPlace_addAutoloadFile (file : String) :
    (Edit.addAutoloadFile file).inPlace manifest.path manifest.document =
      manifest.result (.addAutoloadFile file) := by
  rw [Edit.inPlace, result, answer, apply, addAutoloadFile]
  cases h : manifest.objectUnder "autoload" with
  | error e =>
    rw [within_of_error h]
    rfl
  | ok autoload =>
    rw [within_of_objectUnder h, appendFile_apply]
    cases hfiles : Members.get? "files" autoload with
    | none => simp [bind, Except.bind, hfiles]; rfl
    | some value =>
      -- There is a list only in a section that is there.
      have hsection : manifest.withObject "autoload" autoload = manifest := by
        rcases objectUnder_eq_ok_iff.mp h with hget | ⟨-, rfl⟩
        · exact withObject_of_get? hget
        · cases hfiles
      cases value with
      | array files =>
        simp only [bind, Except.bind, hfiles]
        split_ifs
        · simp [hsection]; rfl
        · rfl
      | _ => simp [bind, Except.bind, hfiles, hsection]; rfl

theorem inPlace_removeAutoloadFile (file : String) :
    (Edit.removeAutoloadFile file).inPlace manifest.path manifest.document =
      manifest.result (.removeAutoloadFile file) := by
  rw [Edit.inPlace, ifObject, get_bind, result, answer, apply,
    removeAutoloadFile]
  cases h : Members.get? "autoload" manifest.document with
  | none => rfl
  | some value =>
    cases value with
    | object autoload =>
      dsimp only
      rw [within_of_objectUnder (objectUnder_of_get? h), dropFile_apply]
      cases hfiles : Members.get? "files" autoload with
      | none => simp [withObject_of_get? h]
      | some value =>
        cases value with
        | array files => rfl
        | _ => simp [withObject_of_get? h]
    | _ => rfl

/-- Made in place, an edit reports what it reports and leaves the document that it leaves, also where it
fails. -/
theorem inPlace_eq (manifest : Manifest) (edit : Edit) :
    edit.inPlace manifest.path manifest.document = manifest.result edit := by
  cases edit with
  | insertDependency package constraint => exact inPlace_insertDependency package constraint
  | removeDependency package => exact inPlace_removeDependency package
  | addAutoloadFile file => exact inPlace_addAutoloadFile file
  | removeAutoloadFile file => exact inPlace_removeAutoloadFile file

theorem outcome_inPlace (manifest : Manifest) (edit : Edit) :
    outcome (edit.inPlace manifest.path) manifest.document = manifest.answer edit := by
  rw [outcome, inPlace_eq, result]
  cases manifest.answer edit <;> rfl

theorem after_inPlace (manifest : Manifest) (edit : Edit) :
    after (edit.inPlace manifest.path) manifest.document = (manifest.apply edit).document := by
  rw [after, inPlace_eq, result]
  cases manifest.answer edit <;> rfl

/-! ## Edits that report no change -/

/-- The edit is for a list without entries, which it drops. -/
def DropsEmptyList (manifest : Manifest) (edit : Edit) : Prop :=
  (∃ file, edit = .removeAutoloadFile file) ∧ manifest.fileList? = some []

theorem addAutoloadFile_eq_false {file : String} {edited : Manifest}
    (h : manifest.addAutoloadFile file = .ok (false, edited)) : edited = manifest := by
  obtain ⟨-, -, files, -, ⟨-, -, hedited⟩ | ⟨-, hadded, -⟩⟩ := exists_of_addAutoloadFile h
  · exact hedited
  · cases hadded

theorem fileList?_eq_some_iff {files : List Json} : manifest.fileList? = some files ↔
    ∃ autoload : Members, Members.get? "autoload" manifest.document = some (.object autoload) ∧
      Members.get? "files" autoload = some (.array files) := by
  simp only [fileList?, Option.bind_eq_bind, Option.bind_eq_some_iff, Json.members?_eq_some_iff,
    Json.items?_eq_some_iff]
  constructor
  · rintro ⟨_, hautoload, autoload, rfl, _, hfiles, rfl⟩
    exact ⟨autoload, hautoload, hfiles⟩
  · rintro ⟨autoload, hautoload, hfiles⟩
    exact ⟨_, hautoload, autoload, rfl, _, hfiles, rfl⟩

theorem removeAutoloadFile_of_files {autoload : Members} {files : List Json}
    (hautoload : Members.get? "autoload" manifest.document = some (.object autoload))
    (hfiles : Members.get? "files" autoload = some (.array files)) (file : String) :
    manifest.removeAutoloadFile file = (files.any (isText file), manifest.withObject "autoload"
      (if (files.filter (!isText file ·)).isEmpty then Members.remove "files" autoload
      else Members.put "files" (.array (files.filter (!isText file ·))) autoload)) := by
  rw [removeAutoloadFile, hautoload]
  dsimp only
  rw [hfiles]

theorem removeAutoloadFile_of_none (h : manifest.fileList? = none) (file : String) :
    manifest.removeAutoloadFile file = (false, manifest) := by
  rw [removeAutoloadFile]
  split
  · next autoload hautoload =>
    split
    · next files hfiles =>
      rw [fileList?_eq_some_iff.mpr ⟨autoload, hautoload, hfiles⟩] at h
      cases h
    · rfl
  · rfl

/-- A list without entries that is dropped is missing in the document. -/
theorem apply_ne_of_dropsEmptyList {edit : Edit} (h : manifest.DropsEmptyList edit) :
    (manifest.apply edit).document ≠ manifest.document := by
  obtain ⟨⟨file, rfl⟩, hfiles⟩ := h
  obtain ⟨autoload, hautoload, hget⟩ := fileList?_eq_some_iff.mp hfiles
  intro heq
  have hafter : Members.get? "autoload" manifest.document =
      some (.object (Members.remove "files" autoload)) := by
    rw [← heq, apply, removeAutoloadFile_of_files hautoload hget]
    exact (get?_withObject _ _ _ _).trans (if_pos rfl)
  have hsame : Members.remove "files" autoload = autoload := by
    simpa using hafter.symm.trans hautoload
  have hgone := Members.get?_remove "files" "files" autoload
  rw [hsame, hget] at hgone
  cases hgone

/-! ## Edits that report a change -/

/-- The section that an edit is for. -/
def Edit.sectionKey : Edit → String
  | .insertDependency _ _ | .removeDependency _ => "require"
  | .addAutoloadFile _ | .removeAutoloadFile _ => "autoload"

/-- What an edit does to its section. -/
def Edit.Changes (before after : Members) : Edit → Prop
  | .insertDependency package constraint => Members.DiffersAt package before after ∧
      Members.get? package after = some (.string constraint)
  | .removeDependency package => ∃ key ∈ before.keys, equalIgnoringCase key package = true ∧
      after = Members.remove key before
  | .addAutoloadFile file => Members.DiffersAt "files" before after ∧ ∃ files,
      (Members.get? "files" before = some (.array files) ∨
        Members.get? "files" before = none ∧ files = []) ∧
      Members.get? "files" after = some (.array (files ++ [.string file]))
  | .removeAutoloadFile file => Members.DiffersAt "files" before after ∧ ∃ files,
      Members.get? "files" before = some (.array files) ∧
      Members.get? "files" after =
        let kept := files.filter (!isText file ·)
        if kept.isEmpty then none else some (.array kept)

/-- The edit leaves all but its section as it is, and what it does to that. -/
def Edit.Does (edit : Edit) (manifest : Manifest) (document : Members) : Prop :=
  Members.DiffersAt edit.sectionKey manifest.document document ∧
    ∃ before after, manifest.objectUnder edit.sectionKey = .ok before ∧
      Members.get? edit.sectionKey document = some (.object after) ∧ edit.Changes before after

/-- The edited manifest is the old one with another object as the section. -/
def Edit.Rewrites (edit : Edit) (manifest edited : Manifest) : Prop :=
  ∃ before after, manifest.objectUnder edit.sectionKey = .ok before ∧ edit.Changes before after ∧
    edited = manifest.withObject edit.sectionKey after

theorem Edit.Rewrites.does {edit : Edit} {edited : Manifest} (h : edit.Rewrites manifest edited) :
    edit.Does manifest edited.document := by
  obtain ⟨before, after, hbefore, hchanges, rfl⟩ := h
  exact ⟨Members.differsAt_put _ _ _, before, after, hbefore,
    (get?_withObject _ _ _ _).trans (if_pos rfl), hchanges⟩

/-- Only the document is edited. -/
theorem Edit.Rewrites.eq_with_document {edit : Edit} {edited : Manifest}
    (h : edit.Rewrites manifest edited) : edited = { manifest with document := edited.document } := by
  obtain ⟨before, after, -, -, rfl⟩ := h
  rfl

theorem rewrites_insertDependency {package constraint : String} {edited : Manifest}
    (h : manifest.insertDependency package constraint = .ok edited) :
    (Edit.insertDependency package constraint).Rewrites manifest edited := by
  obtain ⟨required, hbefore, rfl⟩ := exists_of_insertDependency h
  exact ⟨required, _, hbefore,
    ⟨Members.differsAt_put _ _ _, (Members.get?_put _ _ _ _).trans (if_pos rfl)⟩, rfl⟩

theorem rewrites_removeDependency {package : String} {constraint : Json} {edited : Manifest}
    (h : manifest.removeDependency? package = some (constraint, edited)) :
    (Edit.removeDependency package).Rewrites manifest edited := by
  simp only [removeDependency?, dependency?, Option.bind_eq_bind, Option.bind_eq_some_iff,
    Json.members?_eq_some_iff] at h
  obtain ⟨⟨key, _⟩, ⟨_, hget, required, rfl, hfind⟩, _, hget', required', rfl, hedited⟩ := h
  obtain rfl : required = required' := by simpa using hget.symm.trans hget'
  obtain ⟨-, rfl⟩ := Prod.mk.inj (Option.some.inj hedited)
  have hnames : equalIgnoringCase key package = true := by simpa using List.find?_some hfind
  exact ⟨required, _, objectUnder_of_get? hget,
    ⟨key, Members.mem_keys_of_mem (List.mem_of_find?_eq_some hfind), hnames, rfl⟩, rfl⟩

theorem rewrites_addAutoloadFile {file : String} {edited : Manifest}
    (h : manifest.addAutoloadFile file = .ok (true, edited)) :
    (Edit.addAutoloadFile file).Rewrites manifest edited := by
  obtain ⟨autoload, hbefore, files, hfiles, ⟨-, hadded, -⟩ | ⟨-, -, rfl⟩⟩ :=
    exists_of_addAutoloadFile h
  · cases hadded
  · exact ⟨autoload, _, hbefore, ⟨Members.differsAt_put _ _ _, files, hfiles,
      (Members.get?_put _ _ _ _).trans (if_pos rfl)⟩, rfl⟩

theorem rewrites_removeAutoloadFile {files : List Json} (h : manifest.fileList? = some files)
    (file : String) :
    (Edit.removeAutoloadFile file).Rewrites manifest (manifest.removeAutoloadFile file).2 := by
  obtain ⟨autoload, hautoload, hfiles⟩ := fileList?_eq_some_iff.mp h
  rw [removeAutoloadFile_of_files hautoload hfiles]
  refine ⟨autoload, _, objectUnder_of_get? hautoload, ?_, rfl⟩
  rw [Edit.Changes]
  split_ifs with hempty
  · refine ⟨Members.differsAt_remove _ _, files, hfiles, ?_⟩
    rw [Members.get?_remove, if_pos rfl]
    simp [hempty]
  · refine ⟨Members.differsAt_put _ _ _, files, hfiles, ?_⟩
    rw [Members.get?_put, if_pos rfl]
    simp [hempty]

theorem removeAutoloadFile_cases (manifest : Manifest) (file : String) :
    (Edit.removeAutoloadFile file).Rewrites manifest (manifest.removeAutoloadFile file).2 ∧
        ((manifest.removeAutoloadFile file).1 = true ∨ manifest.fileList? = some []) ∨
      manifest.removeAutoloadFile file = (false, manifest) := by
  cases hfiles : manifest.fileList? with
  | none => exact Or.inr (removeAutoloadFile_of_none hfiles file)
  | some files =>
    have hrewrites := rewrites_removeAutoloadFile hfiles file
    obtain ⟨autoload, hautoload, hget⟩ := fileList?_eq_some_iff.mp hfiles
    by_cases hempty : files = []
    · exact Or.inl ⟨hrewrites, Or.inr (congrArg some hempty)⟩
    rw [removeAutoloadFile_of_files hautoload hget] at hrewrites ⊢
    cases hlisted : files.any (isText file) with
    | true => exact Or.inl ⟨hrewrites, Or.inl rfl⟩
    | false =>
      have hkept : files.filter (!isText file ·) = files := by
        rw [List.filter_eq_self]
        simpa using hlisted
      rw [hkept, if_neg (by simpa using hempty), Members.put_of_get? hget,
        withObject_of_get? hautoload]
      exact Or.inr rfl

/-- An edit rewrites its section, and reports a change or drops a list without entries; or it reports no
change and leaves the manifest as it is. -/
theorem apply_cases (manifest : Manifest) (edit : Edit) :
    edit.Rewrites manifest (manifest.apply edit) ∧
        (manifest.answer edit = .ok true ∨ manifest.DropsEmptyList edit) ∨
      manifest.answer edit ≠ .ok true ∧ manifest.apply edit = manifest := by
  cases edit with
  | insertDependency package constraint =>
    rw [answer, apply]
    cases hinsert : manifest.insertDependency package constraint with
    | error e => exact Or.inr ⟨by simp [Except.map], rfl⟩
    | ok edited => exact Or.inl ⟨rewrites_insertDependency hinsert, Or.inl rfl⟩
  | removeDependency package =>
    rw [answer, apply]
    cases hremove : manifest.removeDependency? package with
    | none => exact Or.inr ⟨by simp, rfl⟩
    | some removed => exact Or.inl ⟨rewrites_removeDependency hremove, Or.inl rfl⟩
  | addAutoloadFile file =>
    rw [answer, apply]
    cases hadd : manifest.addAutoloadFile file with
    | error e => exact Or.inr ⟨by simp [Except.map], rfl⟩
    | ok added =>
      obtain ⟨added, edited⟩ := added
      cases added with
      | true => exact Or.inl ⟨rewrites_addAutoloadFile hadd, Or.inl rfl⟩
      | false => exact Or.inr ⟨by simp [Except.map], addAutoloadFile_eq_false hadd⟩
  | removeAutoloadFile file =>
    rw [answer, apply]
    rcases removeAutoloadFile_cases manifest file with ⟨hrewrites, hlisted | hfiles⟩ | heq
    · exact Or.inl ⟨hrewrites, Or.inl (congrArg Except.ok hlisted)⟩
    · exact Or.inl ⟨hrewrites, Or.inr ⟨⟨file, rfl⟩, hfiles⟩⟩
    · rw [heq]
      exact Or.inr ⟨by simp, rfl⟩

/-- Only the document is edited. -/
theorem apply_eq_with_document (manifest : Manifest) (edit : Edit) :
    manifest.apply edit = { manifest with document := (manifest.apply edit).document } := by
  rcases manifest.apply_cases edit with ⟨hrewrites, -⟩ | ⟨-, heq⟩
  · exact hrewrites.eq_with_document
  · rw [heq]

/-- Made in place, an edit reports what it reports and leaves the document that it leaves, also where it
fails. If it reports no change, the document is as before, unless a file is removed from a list without
entries. If it reports a change, all but its section is kept in its order. -/
theorem apply_reports (manifest : Manifest) (edit : Edit) :
    outcome (edit.inPlace manifest.path) manifest.document = manifest.answer edit ∧
      manifest.apply edit =
        { manifest with document := after (edit.inPlace manifest.path) manifest.document } ∧
      (manifest.answer edit ≠ .ok true →
        ((manifest.apply edit).document = manifest.document ↔ ¬ manifest.DropsEmptyList edit)) ∧
      (manifest.answer edit = .ok true → edit.Does manifest (manifest.apply edit).document) := by
  refine ⟨outcome_inPlace manifest edit, ?_, fun hanswer => ⟨fun heq hlist => ?_, fun hlist => ?_⟩,
    fun hanswer => ?_⟩
  · rw [after_inPlace]
    exact apply_eq_with_document manifest edit
  · exact apply_ne_of_dropsEmptyList hlist heq
  · rcases manifest.apply_cases edit with ⟨-, hreports | hdrops⟩ | ⟨-, heq⟩
    · exact absurd hreports hanswer
    · exact absurd hdrops hlist
    · rw [heq]
  · rcases manifest.apply_cases edit with ⟨hrewrites, -⟩ | ⟨hreports, -⟩
    · exact hrewrites.does
    · exact absurd hanswer hreports

/-- Taking a file out of a list without entries reports no change, and drops the list. -/
theorem not_apply_reports_of_empty_list : ∃ manifest,
    Manifest.parse "composer.json" "\x7b\"autoload\": \x7b\"files\": []\x7d\x7d" = .ok manifest ∧
      let edit : Edit := .removeAutoloadFile "vendor/cmb2/cmb2/init.php"
      outcome (edit.inPlace manifest.path) manifest.document = .ok false ∧
        after (edit.inPlace manifest.path) manifest.document ≠ manifest.document := by
  have hlist : (match
        Manifest.parse "composer.json" "\x7b\"autoload\": \x7b\"files\": []\x7d\x7d" with
      | .ok manifest => manifest.fileList?.map List.isEmpty
      | .error _ => none) = some true := by
    decide +kernel
  split at hlist
  · next manifest hparse =>
    obtain ⟨files, hfiles, hempty⟩ := Option.map_eq_some_iff.mp hlist
    obtain rfl := List.isEmpty_iff.mp hempty
    obtain ⟨autoload, hautoload, hget⟩ := fileList?_eq_some_iff.mp hfiles
    refine ⟨manifest, hparse, ?_, ?_⟩
    · rw [outcome_inPlace, answer, removeAutoloadFile_of_files hautoload hget]
      rfl
    · rw [after_inPlace]
      exact apply_ne_of_dropsEmptyList ⟨⟨_, rfl⟩, hfiles⟩
  · cases hlist

end Manifest

end PluginWorkshop
