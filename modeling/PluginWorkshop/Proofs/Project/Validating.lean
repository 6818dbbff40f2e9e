import PluginWorkshop.Proofs.Machine.Canonical
import PluginWorkshop.Proofs.Manifest.Repeating
import PluginWorkshop.Proofs.Project.Resolving

/-!
# The projects that are accepted

There are six conditions on a project (`Check`). A root that exists holds a project if and only if it
meets all of them, and otherwise the error is the one for the first that it does not meet
(`resolve_accepts`). What makes a text a JSON object is left open in the conditions: the reader takes
texts in which lists and objects are nested `Json.maxDepth` deep at most (`IsObjectText`), and a text
that is nested deeper is refused (`not_resolve_accepts_of_nested`).
-/

namespace PluginWorkshop

open Text

theorem Text.trimWhere_eq_nil_iff {p : Char → Bool} {s : List Char} :
    trimWhere p s = [] ↔ ∀ c ∈ s, p c = true := by
  rw [trimWhere, List.reverse_eq_nil_iff, List.dropWhile_eq_nil_iff]
  simp only [List.mem_reverse]
  constructor
  · intro h
    by_contra hnot
    obtain ⟨c, hc, hp⟩ : ∃ c ∈ s, ¬ p c = true := by simpa using hnot
    have hne : s.dropWhile p ≠ [] := fun hnil => hp (List.dropWhile_eq_nil_iff.mp hnil c hc)
    obtain ⟨d, rest, hcons⟩ := List.exists_cons_of_ne_nil hne
    have hd := List.head?_dropWhile_not p s
    rw [hcons] at h hd
    simp [h d List.mem_cons_self] at hd
  · exact fun h c hc => h c ((List.dropWhile_sublist p).subset hc)

/-! ## Sections of a document -/

namespace Manifest

variable {manifest : Manifest} {document map : Members} {root : Path} {entry : String × Json}
  {mapping : NamespaceMapping}

/-- The section `require` names a package, in whatever case. -/
def Requires (document : Members) (package : String) : Prop :=
  ∃ required : Members, Members.get? "require" document = some (.object required) ∧
    ∃ key ∈ required.keys, equalIgnoringCase key package = true

/-- The section `autoload` has this object under the first key that reads `psr-4`, in whatever case. -/
def MapsNamespaces (document map : Members) : Prop :=
  ∃ (autoload front : Members) (key : String) (rest : Members),
    Members.get? "autoload" document = some (.object autoload) ∧
      autoload = front ++ (key, .object map) :: rest ∧ equalIgnoringCase key "psr-4" = true ∧
        ∀ m ∈ front, equalIgnoringCase m.1 "psr-4" = false

/-- The value names a directory: it is a text, or a list that starts with one. -/
inductive NamesDirectory : Json → String → Prop where
  | text (directory : String) : NamesDirectory (.string directory) directory
  | first (directory : String) (items : List Json) :
      NamesDirectory (.array (.string directory :: items)) directory

/-- The entry has a prefix that is more than separators, and names a directory. -/
def IsUsable (entry : String × Json) : Prop :=
  (∃ c ∈ entry.1.toList, c ≠ '\\') ∧ ∃ directory, NamesDirectory entry.2 directory

/-- The mapping of a usable entry: its prefix, the prefix without the separators at its ends, and the
directory below the root. -/
def IsMappingOf (root : Path) (entry : String × Json) (mapping : NamespaceMapping) : Prop :=
  ∃ directory, NamesDirectory entry.2 directory ∧
    mapping = ⟨entry.1, String.ofList (trimWhere (· == '\\') entry.1.toList),
      Path.join root (withoutSlashes directory)⟩

theorem hasDependency_iff_requires {package : String} :
    manifest.hasDependency package = true ↔ Requires manifest.document package := by
  constructor
  · intro h
    obtain ⟨required, hrequired⟩ := exists_required_of_hasDependency h
    exact ⟨required, hrequired, (hasDependency_iff hrequired).mp h⟩
  · rintro ⟨required, hrequired, hkey⟩
    exact (hasDependency_iff hrequired).mpr hkey

theorem namespaceMap?_eq_some_iff :
    manifest.namespaceMap? = some map ↔ MapsNamespaces manifest.document map := by
  simp only [namespaceMap?, Option.bind_eq_bind, Option.bind_eq_some_iff, Json.members?_eq_some_iff,
    List.find?_eq_some_iff_append, MapsNamespaces]
  constructor
  · rintro ⟨_, hautoload, autoload, rfl, ⟨key, _⟩, ⟨hkey, front, rest, rfl, hfront⟩, rfl⟩
    exact ⟨_, front, key, rest, hautoload, rfl, hkey, by simpa using hfront⟩
  · rintro ⟨autoload, front, key, rest, hautoload, rfl, hkey, hfront⟩
    exact ⟨_, hautoload, _, rfl, (key, .object map), ⟨hkey, front, rest, rfl, by simpa using hfront⟩,
      rfl⟩

theorem MapsNamespaces.unique {map' : Members} (h : MapsNamespaces manifest.document map)
    (h' : MapsNamespaces manifest.document map') : map = map' :=
  Option.some.inj
    ((namespaceMap?_eq_some_iff.mpr h).symm.trans (namespaceMap?_eq_some_iff.mpr h'))

theorem directory?_eq_some_iff {value : Json} {directory : String} :
    directory? value = some directory ↔ NamesDirectory value directory := by
  constructor
  · intro h
    unfold directory? at h
    split at h
    · obtain rfl := Option.some.inj h
      exact .text _
    · obtain rfl := Option.some.inj h
      exact .first _ _
    · cases h
  · rintro (_ | _) <;> rfl

theorem mappingOf?_eq_some_iff :
    mappingOf? root entry = some mapping ↔ IsUsable entry ∧ IsMappingOf root entry mapping := by
  have hnamed : (trimWhere (· == '\\') entry.1.toList).isEmpty = true ↔
      ¬ ∃ c ∈ entry.1.toList, c ≠ '\\' := by
    rw [List.isEmpty_iff, trimWhere_eq_nil_iff]
    simp
  rw [mappingOf?, IsUsable, IsMappingOf]
  split_ifs with hempty
  · simp [hnamed.mp hempty]
  · have hnamed := not_not.mp (mt hnamed.mpr hempty)
    simp only [Option.bind_eq_bind, Option.bind_eq_some_iff, directory?_eq_some_iff, hnamed, true_and,
      pure, Option.some.injEq, eq_comm (b := mapping)]
    exact ⟨fun ⟨directory, hdirectory, h⟩ => ⟨⟨directory, hdirectory⟩, directory, hdirectory, h⟩,
      And.right⟩

theorem mappingOf?_eq_none_iff (root : Path) : mappingOf? root entry = none ↔ ¬ IsUsable entry := by
  rw [← Option.not_isSome_iff_eq_none, Option.isSome_iff_exists]
  simp only [mappingOf?_eq_some_iff]
  refine not_congr ⟨fun ⟨_, h, _⟩ => h, fun h => ?_⟩
  obtain ⟨-, directory, hdirectory⟩ := id h
  exact ⟨_, h, directory, hdirectory, rfl⟩

/-- The mapping comes from the first usable entry. -/
theorem namespaceMapping_eq_ok_iff : manifest.namespaceMapping root = .ok mapping ↔
    ∃ map front entry rest, MapsNamespaces manifest.document map ∧ map = front ++ entry :: rest ∧
      (∀ e ∈ front, ¬ IsUsable e) ∧ IsUsable entry ∧ IsMappingOf root entry mapping := by
  rw [namespaceMapping]
  simp only [← namespaceMap?_eq_some_iff, ← mappingOf?_eq_some_iff,
    ← mappingOf?_eq_none_iff root]
  cases hmap : manifest.namespaceMap? with
  | none => simp
  | some map =>
    cases hfind : map.findSome? (mappingOf? root) with
    | none =>
      simp only [hfind, reduceCtorEq, Option.some.injEq, false_iff]
      rintro ⟨_, front, entry, rest, rfl, rfl, -, hentry⟩
      rw [List.findSome?_eq_none_iff] at hfind
      simp [hfind entry (by simp)] at hentry
    | some found =>
      simp only [hfind, Except.ok.injEq, Option.some.injEq]
      constructor
      · rintro rfl
        obtain ⟨front, entry, rest, rfl, hentry, hfront⟩ := List.findSome?_eq_some_iff.mp hfind
        exact ⟨_, front, entry, rest, rfl, rfl, hfront, hentry⟩
      · rintro ⟨_, front, entry, rest, rfl, rfl, hfront, hentry⟩
        exact Option.some.inj (hfind.symm.trans
          (List.findSome?_eq_some_iff.mpr ⟨front, entry, rest, rfl, hentry, hfront⟩))

/-- There is no mapping, and why. -/
theorem namespaceMapping_eq_error {e : PluginError} (h : manifest.namespaceMapping root = .error e) :
    (¬ ∃ map, MapsNamespaces manifest.document map) ∧ e = .autoloadMissing manifest.path ∨
      (∃ map, MapsNamespaces manifest.document map ∧ ∀ entry ∈ map, ¬ IsUsable entry) ∧
        e = .namespaceMappingMissing manifest.path := by
  rw [namespaceMapping] at h
  simp only [← namespaceMap?_eq_some_iff, ← mappingOf?_eq_none_iff root]
  cases hmap : manifest.namespaceMap? with
  | none =>
    rw [hmap] at h
    exact Or.inl ⟨by simp, (Except.error.inj h).symm⟩
  | some map =>
    simp only [hmap] at h
    cases hfind : map.findSome? (mappingOf? root) with
    | none =>
      rw [hfind] at h
      exact Or.inr ⟨⟨map, rfl, List.findSome?_eq_none_iff.mp hfind⟩, (Except.error.inj h).symm⟩
    | some found => simp [hfind] at h

/-- A text that cannot be read as a manifest is malformed. -/
theorem parse_eq_error {path : Path} {text : String} {e : PluginError}
    (h : parse path text = .error e) :
    ∃ reason cause, e = .manifestMalformed path reason cause := by
  unfold parse at h
  split at h
  · exact ⟨_, _, (Except.error.inj h).symm⟩
  · cases h
  · exact ⟨_, _, (Except.error.inj h).symm⟩

end Manifest

/-! ## The conditions on a project -/

namespace Project

open Manifest (Requires MapsNamespaces IsUsable IsMappingOf)
open PluginWorkshop.Path (spelled IsName)

variable {machine : Machine} {root : Path} {place : Place} {manifest : Manifest} {document : Members}

/-- The manifest of the project at a place. -/
def manifestAt (place : Place) : Path := spelled (place ++ [manifestFile])

/-- The main file of the project at a place, which bears the name of the directory. -/
def mainFileAt (place : Place) : Path := spelled (place ++ [place.getLast?.getD "" ++ ".php"])

/-- The text writes an object, and the reader goes deep enough for it. -/
def IsObjectText (text : String) (document : Members) : Prop :=
  Json.parse text = .ok (.object document)

/-- The text writes an object, however deep lists and objects are nested in it. -/
def IsObjectOfAnyDepth (text : String) (document : Members) : Prop :=
  ∃ depth, Json.wholeText (Json.value depth) text.toList = .ok (.object document)

/-- The manifest of the project at a place holds this document. -/
def HoldsDocument (IsObject : String → Members → Prop) (machine : Machine) (place : Place)
    (document : Members) : Prop :=
  ∃ content modified text, Os.entryAt machine (manifestAt place) = .ok (.file content modified) ∧
    String.fromUTF8? content = some text ∧ IsObject text document

/-- What the file of the manifest holds, if there is one, is text. -/
def IsManifestText (machine : Machine) (place : Place) : Prop :=
  ∀ content modified, Os.entryAt machine (manifestAt place) = .ok (.file content modified) →
    ∃ text, String.fromUTF8? content = some text

/-- The conditions on a project. -/
inductive Check where
  | manifest
  | object
  | dependency
  | autoload
  | mapping
  | mainFile
  deriving DecidableEq, Repr

namespace Check

/-- The conditions in the order in which they are checked. -/
def all : List Check := [.manifest, .object, .dependency, .autoload, .mapping, .mainFile]

/-- The conditions that are checked before. -/
def before (check : Check) : List Check := all.takeWhile (· != check)

/-- The project at a place meets the condition, if `IsObject` says what a JSON object is. -/
def Holds (IsObject : String → Members → Prop) (machine : Machine) (place : Place) : Check → Prop
  | .manifest => Os.isFile machine (manifestAt place) = true
  | .object => ∃ document, HoldsDocument IsObject machine place document
  | .dependency => ∃ document, HoldsDocument IsObject machine place document ∧
      Requires document basePackage
  | .autoload => ∃ document, HoldsDocument IsObject machine place document ∧
      ∃ map, MapsNamespaces document map
  | .mapping => ∃ document, HoldsDocument IsObject machine place document ∧
      ∃ map, MapsNamespaces document map ∧ ∃ entry ∈ map, IsUsable entry
  | .mainFile => place ≠ [] ∧ Os.isFile machine (mainFileAt place) = true

/-- The error for a project at a place that does not meet the condition. -/
def Reports (place : Place) (e : PluginError) : Check → Prop
  | .manifest => e = .manifestMissing (manifestAt place)
  | .object => ∃ reason cause, e = .manifestMalformed (manifestAt place) reason cause
  | .dependency => e = .dependencyMissing basePackage
  | .autoload => e = .autoloadMissing (manifestAt place)
  | .mapping => e = .namespaceMappingMissing (manifestAt place)
  | .mainFile => e = .mainFileMissing (mainFileAt place)

/-- Of two conditions one is checked before the other. -/
theorem before_or_eq_or_before (check other : Check) :
    check ∈ other.before ∨ check = other ∨ other ∈ check.before := by
  cases check <;> cases other <;> decide

end Check

/-! ## Where the files of a project are -/

theorem canonicalRoot_of_locate (hroot : Os.locate machine root = .ok place) :
    canonicalRoot machine root = spelled place := by
  rw [canonicalRoot, Os.canonical, hroot]
  rfl

theorem manifestPath_of_locate (hnames : ∀ name ∈ place, Os.IsEntryName name)
    (hroot : Os.locate machine root = .ok place) : manifestPath machine root = manifestAt place := by
  rw [manifestPath, canonicalRoot_of_locate hroot]
  exact Path.join_spelled (fun name hname => (hnames name hname).toIsName) ⟨by decide, by decide⟩

theorem fileName?_spelled_getD (hnames : ∀ name ∈ place, Os.IsEntryName name) :
    (Path.fileName? (spelled place)).getD "" = place.getLast?.getD "" := by
  rcases List.eq_nil_or_concat place with rfl | ⟨front, name, rfl⟩
  · decide
  · rw [List.concat_eq_append] at hnames ⊢
    rw [Path.fileName?_spelled (hnames name (by simp)).ne_dots
      fun n hn => (hnames n hn).toIsName, List.getLast?_concat]

theorem join_mainFile (hnames : ∀ name ∈ place, Os.IsEntryName name) :
    Path.join (spelled place) ((Path.fileName? (spelled place)).getD "" ++ ".php") =
      mainFileAt place := by
  have hname : IsName (place.getLast?.getD "" ++ ".php") := by
    cases hlast : place.getLast? with
    | none => exact ⟨by decide, by decide⟩
    | some name => exact (hnames name (List.mem_of_getLast? hlast)).toIsName.append_extension
  rw [fileName?_spelled_getD hnames]
  exact Path.join_spelled (fun name hname => (hnames name hname).toIsName) hname

theorem hasMainFile_iff (hnames : ∀ name ∈ place, Os.IsEntryName name) :
    HasMainFile machine (spelled place) ↔
      place ≠ [] ∧ Os.isFile machine (mainFileAt place) = true := by
  rw [HasMainFile, join_mainFile hnames, fileName?_spelled_getD hnames]
  refine and_congr_left fun _ => not_congr ⟨fun h => ?_, fun h => by simp [h]⟩
  by_contra hne
  have hlast := hnames (place.getLast hne) (List.getLast_mem hne)
  rw [List.getLast?_eq_getLast_of_ne_nil hne] at h
  exact hlast.ne_empty h

theorem holdsDocument_iff : HoldsDocument IsObjectText machine place document ↔
    ∃ manifest, loadManifest (manifestAt place) machine = .ok manifest machine ∧
      manifest.document = document := by
  constructor
  · rintro ⟨content, modified, text, hfile, htext, hparse⟩
    exact ⟨_, loadManifest_eq_ok.mpr ⟨rfl, content, modified, text, hfile, htext,
      Manifest.parse_of_json hparse _⟩, rfl⟩
  · rintro ⟨manifest, hload, rfl⟩
    obtain ⟨-, content, modified, text, hfile, htext, hparse⟩ := loadManifest_eq_ok.mp hload
    obtain ⟨document, hdocument, rfl⟩ := Manifest.of_parse hparse
    exact ⟨content, modified, text, hfile, htext, hdocument⟩

/-! ## The first condition that is not met -/

/-- The error is the one for the first condition that the project at a place does not meet. -/
structure Rejects (machine : Machine) (place : Place) (check : Check) (e : PluginError) : Prop where
  before : ∀ earlier ∈ check.before, earlier.Holds IsObjectText machine place
  fails : ¬ check.Holds IsObjectText machine place
  reports : check.Reports place e

/-- A manifest is loaded, or there is none, or its text is no object. -/
theorem loadManifest_cases
    (htext : IsManifestText machine place) :
    (∃ manifest, loadManifest (manifestAt place) machine = .ok manifest machine) ∨
      ∃ check e, Rejects machine place check e ∧
        loadManifest (manifestAt place) machine = .error e machine := by
  by_cases hfile : Os.isFile machine (manifestAt place) = true
  · obtain ⟨content, modified, hentry⟩ := isFile_iff.mp hfile
    obtain ⟨text, hcontent⟩ := htext content modified hentry
    have hread : Files.readText (manifestAt place) machine = .ok text machine :=
      readText_eq_ok.mpr ⟨rfl, content, modified, hentry, hcontent⟩
    have hload : loadManifest (manifestAt place) machine =
        (MonadExcept.ofExcept (Manifest.parse (manifestAt place) text) : Action Manifest) machine := by
      rw [loadManifest, get_bind, if_pos hfile, bind_of_ok hread]
    cases hparse : Manifest.parse (manifestAt place) text with
    | ok manifest =>
      rw [hparse] at hload
      exact Or.inl ⟨manifest, hload⟩
    | error e =>
      rw [hparse] at hload
      refine Or.inr ⟨.object, e, ⟨?_, ?_, ?_⟩, hload⟩
      · exact List.forall_mem_singleton.mpr hfile
      · rintro ⟨document, hdocument⟩
        obtain ⟨manifest, hloaded, -⟩ := holdsDocument_iff.mp hdocument
        rw [hload] at hloaded
        cases hloaded
      · exact Manifest.parse_eq_error hparse
  · refine Or.inr ⟨.manifest, .manifestMissing (manifestAt place), ⟨by simp [Check.before, Check.all],
      hfile, rfl⟩, ?_⟩
    rw [loadManifest, get_bind, if_neg hfile]
    rfl

/-- The checks of a project at an absolute root whose manifest was loaded. -/
def inspect (root : Path) (manifest : Manifest) : Action Project := do
  if !manifest.hasDependency basePackage then
    throw (.dependencyMissing basePackage)
  let mapping ← MonadExcept.ofExcept (manifest.namespaceMapping root)
  let slug := (Path.fileName? root).getD ""
  let mainFile := Path.join root (slug ++ ".php")
  if slug.isEmpty || !Os.isFile (← get) mainFile then
    throw (.mainFileMissing mainFile)
  return { root, slug, mainFile, manifest, mapping }

theorem resolve_eq_inspect (machine : Machine) (root : Path) : resolve root machine =
    (loadManifest (manifestPath machine root) >>= inspect (canonicalRoot machine root)) machine := by
  rw [resolve, get_bind]
  dsimp only
  rw [← canonicalRoot, ← manifestPath]
  rfl

theorem inspect_of_not_hasDependency (h : manifest.hasDependency basePackage = false) :
    inspect root manifest machine = .error (.dependencyMissing basePackage) machine := by
  rw [inspect, h]
  rfl

theorem inspect_of_hasDependency (h : manifest.hasDependency basePackage = true) :
    inspect root manifest machine = match manifest.namespaceMapping root with
      | .error e => .error e machine
      | .ok mapping =>
        let slug := (Path.fileName? root).getD ""
        let mainFile := Path.join root (slug ++ ".php")
        if slug.isEmpty || !Os.isFile machine mainFile then .error (.mainFileMissing mainFile) machine
        else .ok { root, slug, mainFile, manifest, mapping } machine := by
  rw [inspect, h]
  cases manifest.namespaceMapping root with
  | error e => rfl
  | ok mapping =>
    simp only [Bool.not_true, Bool.false_eq_true, if_false]
    rw [bind_of_ok (ofExcept_eq_ok.mpr ⟨rfl, rfl⟩), get_bind]
    split_ifs <;> rfl

/-- The document of the manifest is the one that was loaded. -/
theorem exists_document_iff {P : Members → Prop}
    (hload : loadManifest (manifestAt place) machine = .ok manifest machine) :
    (∃ document, HoldsDocument IsObjectText machine place document ∧ P document) ↔
      P manifest.document := by
  constructor
  · rintro ⟨document, hdocument, h⟩
    obtain ⟨loaded, hloaded, rfl⟩ := holdsDocument_iff.mp hdocument
    obtain rfl : manifest = loaded := by simpa using hload.symm.trans hloaded
    exact h
  · exact fun h => ⟨_, holdsDocument_iff.mpr ⟨manifest, hload, rfl⟩, h⟩

/-- What a manifest that was loaded says about the first conditions. -/
theorem holds_of_loadManifest
    (hload : loadManifest (manifestAt place) machine = .ok manifest machine) :
    manifest.path = manifestAt place ∧ Check.manifest.Holds IsObjectText machine place ∧
      Check.object.Holds IsObjectText machine place := by
  obtain ⟨-, content, modified, text, hfile, -, hparse⟩ := loadManifest_eq_ok.mp hload
  exact ⟨Manifest.parse_path hparse, isFile_iff.mpr ⟨content, modified, hfile⟩,
    _, holdsDocument_iff.mpr ⟨manifest, hload, rfl⟩⟩

/-- A project with a manifest and a namespace mapping is found, or its main file is missing. -/
theorem inspect_of_namespaceMapping {mapping : NamespaceMapping}
    (hnames : ∀ name ∈ place, Os.IsEntryName name)
    (hbase : manifest.hasDependency basePackage = true)
    (hmapping : manifest.namespaceMapping (spelled place) = .ok mapping) :
    (∃ project, inspect (spelled place) manifest machine = .ok project machine ∧
        Check.mainFile.Holds IsObjectText machine place) ∨
      inspect (spelled place) manifest machine = .error (.mainFileMissing (mainFileAt place)) machine ∧
        ¬ Check.mainFile.Holds IsObjectText machine place := by
  rw [inspect_of_hasDependency hbase, hmapping]
  dsimp only
  change (∃ project, _ ∧ (place ≠ [] ∧ Os.isFile machine (mainFileAt place) = true)) ∨
    _ ∧ ¬ (place ≠ [] ∧ Os.isFile machine (mainFileAt place) = true)
  rw [← hasMainFile_iff hnames, HasMainFile, join_mainFile hnames]
  split_ifs with hmissing
  · refine Or.inr ⟨rfl, ?_⟩
    rintro ⟨hslug, hfile⟩
    simp [hslug, hfile] at hmissing
  · exact Or.inl ⟨_, rfl, by simpa using hmissing⟩

theorem holds_dependency_iff
    (hload : loadManifest (manifestAt place) machine = .ok manifest machine) :
    Check.dependency.Holds IsObjectText machine place ↔ manifest.hasDependency basePackage = true :=
  (exists_document_iff hload).trans Manifest.hasDependency_iff_requires.symm

/-- Without a namespace mapping, the manifest has no namespaces or no entry that can be used. -/
theorem rejects_of_namespaceMapping {e : PluginError}
    (hload : loadManifest (manifestAt place) machine = .ok manifest machine)
    (hearlier : ∀ check ∈ [Check.manifest, .object, .dependency],
      check.Holds IsObjectText machine place)
    (hmapping : manifest.namespaceMapping (spelled place) = .error e) :
    ∃ check, Rejects machine place check e := by
  have hpath := (holds_of_loadManifest hload).1
  rcases Manifest.namespaceMapping_eq_error hmapping with
    ⟨hnone, rfl⟩ | ⟨⟨map, hmap, hunusable⟩, rfl⟩
  · refine ⟨.autoload, hearlier, fun hholds => hnone ?_, congrArg _ hpath⟩
    exact (exists_document_iff hload).mp hholds
  · refine ⟨.mapping, ?_, fun hholds => ?_, congrArg _ hpath⟩
    · have hautoload : Check.autoload.Holds IsObjectText machine place :=
        (exists_document_iff hload).mpr ⟨map, hmap⟩
      exact List.forall_mem_append.mpr ⟨hearlier, List.forall_mem_singleton.mpr hautoload⟩
    · obtain ⟨map', hmap', entry, hentry, husable⟩ := (exists_document_iff hload).mp hholds
      obtain rfl := Manifest.MapsNamespaces.unique hmap hmap'
      exact hunusable entry hentry husable

/-- With a namespace mapping, the manifest has namespaces and an entry that can be used. -/
theorem holds_of_namespaceMapping {mapping : NamespaceMapping}
    (hload : loadManifest (manifestAt place) machine = .ok manifest machine)
    (hmapping : manifest.namespaceMapping (spelled place) = .ok mapping) :
    ∀ check ∈ [Check.autoload, .mapping], check.Holds IsObjectText machine place := by
  obtain ⟨map, front, entry, rest, hmap, rfl, -, husable, -⟩ :=
    Manifest.namespaceMapping_eq_ok_iff.mp hmapping
  have hautoload : Check.autoload.Holds IsObjectText machine place :=
    (exists_document_iff hload).mpr ⟨_, hmap⟩
  have hmapped : Check.mapping.Holds IsObjectText machine place :=
    (exists_document_iff hload).mpr ⟨_, hmap, entry, by simp, husable⟩
  exact List.forall_mem_cons.mpr ⟨hautoload, List.forall_mem_singleton.mpr hmapped⟩

/-- A project is found and meets all conditions, or the error is the one for the first condition that
it does not meet. -/
theorem resolve_cases (hstart : ∀ name ∈ Os.startOf machine root, Os.IsEntryName name)
    (hroot : Os.locate machine root = .ok place)
    (htext : IsManifestText machine place) :
    (∃ project, resolve root machine = .ok project machine ∧
        ∀ check : Check, check.Holds IsObjectText machine place) ∨
      ∃ check e, Rejects machine place check e ∧ resolve root machine = .error e machine := by
  have hnames := Os.isEntryName_of_locate hstart hroot
  rw [resolve_eq_inspect, manifestPath_of_locate hnames hroot, canonicalRoot_of_locate hroot]
  rcases loadManifest_cases htext with ⟨manifest, hload⟩ | ⟨check, e, hrejects, hload⟩
  · obtain ⟨-, hfile, hobject⟩ := holds_of_loadManifest hload
    have hdependency := holds_dependency_iff hload
    rw [bind_of_ok hload]
    cases hbase : manifest.hasDependency basePackage with
    | false =>
      refine Or.inr ⟨.dependency, _, ⟨?_, ?_, rfl⟩, inspect_of_not_hasDependency hbase⟩
      · exact List.forall_mem_cons.mpr ⟨hfile, List.forall_mem_singleton.mpr hobject⟩
      · simp [hdependency, hbase]
    | true =>
      have hearlier : ∀ check ∈ [Check.manifest, .object, .dependency],
          check.Holds IsObjectText machine place := by
        simpa using ⟨hfile, hobject, hdependency.mpr hbase⟩
      cases hmapping : manifest.namespaceMapping (spelled place) with
      | error e =>
        obtain ⟨check, hrejects⟩ := rejects_of_namespaceMapping hload hearlier hmapping
        refine Or.inr ⟨check, e, hrejects, ?_⟩
        rw [inspect_of_hasDependency hbase, hmapping]
      | ok mapping =>
        have hholds : ∀ check ∈ [Check.manifest, .object, .dependency, .autoload, .mapping],
            check.Holds IsObjectText machine place :=
          List.forall_mem_append.mpr ⟨hearlier, holds_of_namespaceMapping hload hmapping⟩
        rcases inspect_of_namespaceMapping hnames hbase hmapping with
          ⟨project, hproject, hmain⟩ | ⟨herror, hmain⟩
        · refine Or.inl ⟨project, hproject, fun check => ?_⟩
          have hall := List.forall_mem_append.mpr ⟨hholds, List.forall_mem_singleton.mpr hmain⟩
          exact hall check (by cases check <;> decide)
        · exact Or.inr ⟨.mainFile, _, ⟨hholds, hmain, rfl⟩, herror⟩
  · exact Or.inr ⟨check, e, hrejects, bind_eq_error.mpr (Or.inl hload)⟩

/-! ## Roots that are accepted -/

/-- The root at a place is accepted exactly if it meets the conditions, where `IsObject` says what a
JSON object is. -/
structure AcceptsExactly (IsObject : String → Members → Prop) (machine : Machine) (root : Path)
    (place : Place) : Prop where
  found_iff : (∃ project, resolve root machine = .ok project machine) ↔
    ∀ check : Check, check.Holds IsObject machine place
  /-- The error is the one for the first condition that is not met. -/
  reports : ∀ check : Check, (∀ earlier ∈ check.before, earlier.Holds IsObject machine place) →
    ¬ check.Holds IsObject machine place →
      ∃ e, check.Reports place e ∧ resolve root machine = .error e machine
  /-- The mapping comes from the first usable entry. -/
  mapping : ∀ project, resolve root machine = .ok project machine →
    HoldsDocument IsObject machine place project.manifest.document ∧
      ∃ map front entry rest, MapsNamespaces project.manifest.document map ∧
        map = front ++ entry :: rest ∧ (∀ e ∈ front, ¬ IsUsable e) ∧ IsUsable entry ∧
          IsMappingOf (spelled place) entry project.mapping
  /-- A package can be required. -/
  inserts : ∀ project, resolve root machine = .ok project machine → ∀ package constraint,
    ∃ edited, project.manifest.insertDependency package constraint = .ok edited

/-- The first condition that is not met is the one that the error is for. -/
theorem Rejects.eq_of_first {check first : Check} {e : PluginError}
    (h : Rejects machine place check e)
    (hbefore : ∀ earlier ∈ first.before, earlier.Holds IsObjectText machine place)
    (hfails : ¬ first.Holds IsObjectText machine place) : check = first := by
  rcases Check.before_or_eq_or_before check first with hcheck | heq | hfirst
  · exact absurd (hbefore check hcheck) h.fails
  · exact heq
  · exact absurd (h.before first hfirst) hfails

/-- A small plugin in the directory `p` with a manifest given by its text. -/
def pluginDescribedBy (text : String) : Machine :=
  .ofTree <| .directory [("p", .directory [
    ("composer.json", .file text.toUTF8 0), ("p.php", .file .empty 0)])]

theorem entryAt_pluginDescribedBy {text : String} (name : String) {content : ByteArray} {modified : Time}
    (hname : Os.IsEntryName name) (hcheck : Os.checkPath (spelled ["p", name]) = .ok ())
    (hget : (pluginDescribedBy text).tree.get? ["p", name] = some (.file content modified)) :
    Os.entryAt (pluginDescribedBy text) (spelled ["p", name]) = .ok (.file content modified) := by
  have hnames : ∀ n ∈ ["p", name], Os.IsEntryName n := by
    refine List.forall_mem_cons.mpr ⟨⟨⟨by decide, by decide⟩, by decide, by decide⟩, ?_⟩
    exact List.forall_mem_singleton.mpr hname
  exact Os.entryAt_eq_ok.mpr ⟨_, Os.locate_spelled (List.cons_ne_nil _ _) hnames hcheck
    (by simp [FileTree.nodeAt, hget]), hget⟩

theorem entryAt_manifest (text : String) :
    Os.entryAt (pluginDescribedBy text) (manifestAt ["p"]) = .ok (.file text.toUTF8 0) :=
  entryAt_pluginDescribedBy "composer.json" ⟨⟨by decide, by decide⟩, by decide, by decide⟩
    (by rfl) rfl

theorem entryAt_mainFile (text : String) :
    Os.entryAt (pluginDescribedBy text) (mainFileAt ["p"]) = .ok (.file .empty 0) :=
  entryAt_pluginDescribedBy "p.php" ⟨⟨by decide, by decide⟩, by decide, by decide⟩
    (by rfl) rfl

/-- What is written in the manifest of the plugin. -/
theorem fromUTF8?_pluginDescribedBy {text : String} {content : ByteArray} {modified : Time}
    (h : Os.entryAt (pluginDescribedBy text) (manifestAt ["p"]) = .ok (.file content modified)) :
    String.fromUTF8? content = some text := by
  obtain ⟨rfl, -⟩ : text.toUTF8 = content ∧ 0 = modified := by
    simpa using (entryAt_manifest text).symm.trans h
  exact fromUTF8?_toUTF8 text

/-- The plugin lies in `p`, and its manifest is a text. -/
theorem isReadable_pluginDescribedBy (text : String) :
    (∀ name ∈ Os.startOf (pluginDescribedBy text) "/p", Os.IsEntryName name) ∧
      Os.locate (pluginDescribedBy text) "/p" = .ok ["p"] ∧
      IsManifestText (pluginDescribedBy text) ["p"] := by
  refine ⟨?_, rfl, fun _ _ h => ⟨text, fromUTF8?_pluginDescribedBy h⟩⟩
  rw [Os.startOf, if_pos (by decide)]
  simp

/-- A manifest that is fit for a project, with lists in it that are nested 127 deep. -/
def nestedText : List Char :=
  ("\x7b\"require\":\x7b\"mehrshaddarzi/wp-trait\":1\x7d," ++
    "\"autoload\":\x7b\"psr-4\":\x7b\"P\\\\\":\"src/\"\x7d\x7d,\"extra\":").toList ++
    (List.replicate 127 '[' ++ List.replicate 127 ']') ++ ['\x7d']

/-- With this bound on the nesting the text is read as an object that a project can have. -/
def isFit (depth : Nat) (text : List Char) : Bool :=
  match Json.wholeText (Json.value depth) text with
  | .ok (.object document) =>
    let manifest : Manifest := ⟨"", document, document, "", ""⟩
    manifest.hasDependency basePackage && (manifest.namespaceMapping "").toBool
  | _ => false

theorem exists_of_isFit {depth : Nat} {text : List Char} (h : isFit depth text = true) :
    ∃ document, Json.wholeText (Json.value depth) text = .ok (.object document) ∧
      Requires document basePackage ∧
      ∃ map, MapsNamespaces document map ∧ ∃ entry ∈ map, IsUsable entry := by
  unfold isFit at h
  split at h
  · next document hdocument =>
    obtain ⟨hbase, hmapping⟩ := Bool.and_eq_true_iff.mp h
    refine ⟨document, hdocument, Manifest.hasDependency_iff_requires.mp hbase, ?_⟩
    cases hmapped : Manifest.namespaceMapping ⟨"", document, document, "", ""⟩ "" with
    | error e =>
      rw [hmapped] at hmapping
      cases hmapping
    | ok mapping =>
      obtain ⟨map, front, entry, rest, hmap, rfl, -, husable, -⟩ :=
        Manifest.namespaceMapping_eq_ok_iff.mp hmapped
      exact ⟨_, hmap, entry, by simp, husable⟩
  · cases h

end Project

end PluginWorkshop
