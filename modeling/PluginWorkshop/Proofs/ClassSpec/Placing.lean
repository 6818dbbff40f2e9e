import PluginWorkshop.Proofs.ClassSpec.WiredTexts
import PluginWorkshop.Proofs.Machine.Canonical
import PluginWorkshop.Proofs.Machine.Entries

/-!
# The place of a class

The folders and the class name of a class that is accepted are the pieces of its class path
(`ClassSpec.map_toList_segments`), and each of them names one entry of a directory
(`ClassSpec.isEntry_of_mem_segments`). So the file of the class lies below the source directory
(`ClassSpec.namedPlace_file`), and autoloading finds it under the qualified name
(`ClassSpec.autoloadFile?_qualifiedName`). Both differ for two classes unless all their folders and
their names are the same (`ClassSpec.segments_eq_of_namedPlace`).
-/

namespace PluginWorkshop

open Text

/-! ## Paths below a directory -/

namespace Path

variable {name : String} {names : List String}

/-- A text that names one entry of a directory, and not the directory above. -/
structure IsEntry (name : String) : Prop extends IsName name where
  ne_parent : name ≠ ".."

/-- An extension makes another entry out of an entry. -/
theorem IsEntry.append_extension (h : IsEntry name) : IsEntry (name ++ ".php") where
  toIsName := h.toIsName.append_extension
  ne_parent heq := by
    have hlast : (name ++ ".php").toList.getLast? = some 'p' := by simp
    rw [heq] at hlast
    exact absurd hlast (by decide)

theorem isEntry_of_isIdentifier (h : Php.isIdentifier name.toList = true) : IsEntry name where
  slash hmem := absurd (Php.isIdentifierPart_of_mem h hmem) (by decide)
  inert := by
    rw [isInert, Bool.or_eq_false_iff, beq_eq_false_iff_ne, beq_eq_false_iff_ne]
    constructor <;> rintro rfl <;> exact absurd h (by decide)
  ne_parent := by
    rintro rfl
    exact absurd h (by decide)

/-- Whatever is joined to a path, unless it is absolute, is put behind the same text. -/
theorem exists_join_eq_append (base : Path) :
    ∃ front, ∀ rest, isAbsolute rest = false → join base rest = front ++ rest := by
  by_cases h : (base.isEmpty || base.toList.getLast? == some '/') = true
  · exact ⟨base, fun rest hrest => by rw [join, if_neg (by simp [hrest]), if_pos h]⟩
  · exact ⟨base ++ "/", fun rest hrest => by rw [join, if_neg (by simp [hrest]), if_neg h]⟩

theorem isAbsolute_append_of_ne_empty (hname : name ≠ "") (rest : String) :
    isAbsolute (name ++ rest) = isAbsolute name := by
  obtain ⟨c, tail, hchars⟩ := List.exists_cons_of_ne_nil (mt String.toList_eq_nil_iff.mp hname)
  simp [isAbsolute, hchars]

theorem join_join_of_not_isAbsolute (base : Path) (hname : IsName name) {rest : Path}
    (hrest : isAbsolute rest = false) :
    join (join base name) rest = join base (name ++ "/" ++ rest) := by
  obtain ⟨front, hfront⟩ := exists_join_eq_append base
  have hjoined := hfront name hname.isAbsolute_eq
  have hlast : (join base name).toList.getLast? ≠ some '/' := by
    rw [hjoined, String.toList_append,
      List.getLast?_append_of_ne_nil _ (mt String.toList_eq_nil_iff.mp hname.ne_empty)]
    exact getLast?_ne_slash hname
  have hwhole : isAbsolute (name ++ "/" ++ rest) = false := by
    rw [String.append_assoc, isAbsolute_append_of_ne_empty hname.ne_empty, hname.isAbsolute_eq]
  rw [hfront _ hwhole, join, if_neg (by simp [hrest]),
    if_neg (by simp [join_ne_empty base hname, hlast]), hjoined]
  simp only [String.append_assoc]

theorem isAbsolute_intercalate (h : ∀ name ∈ names, IsName name) :
    isAbsolute ("/".intercalate names) = false := by
  cases names with
  | nil => decide
  | cons name names =>
    have hname := h name List.mem_cons_self
    cases names with
    | nil => simpa using hname.isAbsolute_eq
    | cons next names =>
      rw [String.intercalate_cons_cons, String.append_assoc,
        isAbsolute_append_of_ne_empty hname.ne_empty, hname.isAbsolute_eq]

/-- Names joined one after the other are joined with slashes between them. -/
theorem foldl_join (hne : names ≠ []) (h : ∀ name ∈ names, IsName name) (base : Path) :
    names.foldl join base = join base ("/".intercalate names) := by
  induction names generalizing base with
  | nil => exact absurd rfl hne
  | cons name names ih =>
    cases names with
    | nil => simp
    | cons next names =>
      have hnames := fun n hn => h n (List.mem_cons_of_mem name hn)
      rw [List.foldl_cons, ih (List.cons_ne_nil _ _) hnames,
        join_join_of_not_isAbsolute base (h name List.mem_cons_self)
          (isAbsolute_intercalate hnames),
        String.intercalate_cons_cons]

end Path

theorem Os.namedPlace_foldl_join (machine : Machine) {names : List String}
    (h : ∀ name ∈ names, Path.IsEntry name) (base : Path) :
    namedPlace machine (names.foldl Path.join base) = namedPlace machine base ++ names := by
  induction names generalizing base with
  | nil => simp
  | cons name names ih =>
    have hname := h name List.mem_cons_self
    rw [List.foldl_cons, ih fun n hn => h n (List.mem_cons_of_mem name hn),
      namedPlace_join_eq machine base hname.toIsName hname.ne_parent, List.append_assoc]
    rfl

namespace ClassSpec

variable {request request' : ClassRequest} {spec spec' : ClassSpec} {mapping : NamespaceMapping}

/-! ## The folders and the name of a class -/

/-- The folders and the class name are the pieces of the class path that are not empty. -/
theorem map_toList_segments (h : ofRequest request = .ok spec) :
    spec.segments.map String.toList = pathSegments request.classPath := by
  have hpath := (exists_of_ofRequest h).1
  rw [parsePath] at hpath
  cases hlast : (pathSegments request.classPath).getLast? with
  | none => simp [hlast] at hpath
  | some last =>
    cases hbad : (pathSegments request.classPath).find? (!Php.isIdentifier ·) with
    | some bad => simp [hlast, hbad] at hpath
    | none =>
      simp only [hlast, hbad, Except.ok.injEq, Prod.mk.injEq] at hpath
      obtain ⟨hfolders, hname⟩ := hpath
      obtain ⟨front, hfront⟩ := List.getLast?_eq_some_iff.mp hlast
      rw [segments, ← hfolders, ← hname, hfront]
      simp [Function.comp_def]

/-- Each of them names an entry of a directory. -/
theorem isEntry_of_mem_segments (h : ofRequest request = .ok spec) {segment : String}
    (hsegment : segment ∈ spec.segments) : Path.IsEntry segment :=
  Path.isEntry_of_isIdentifier ((isIdentifier_of_ofRequest h).2 segment hsegment)

theorem backslash_notMem_of_mem_segments (h : ofRequest request = .ok spec) {segment : String}
    (hsegment : segment ∈ spec.segments) : '\\' ∉ segment.toList := fun hmem =>
  absurd (Php.isIdentifierPart_of_mem ((isIdentifier_of_ofRequest h).2 segment hsegment) hmem)
    (by decide)

/-- The entries that lead from the source directory to the file of the class. -/
def entries (spec : ClassSpec) : List String := spec.folders ++ [spec.className ++ ".php"]

theorem isEntry_of_mem_entries (h : ofRequest request = .ok spec) :
    ∀ entry ∈ spec.entries, Path.IsEntry entry := by
  intro entry hentry
  rcases List.mem_append.mp hentry with hfolder | hfile
  · exact isEntry_of_mem_segments h (List.mem_append_left _ hfolder)
  · obtain rfl := List.mem_singleton.mp hfile
    exact (isEntry_of_mem_segments h (by simp [segments])).append_extension

theorem entries_injective (h : spec.entries = spec'.entries) : spec.segments = spec'.segments := by
  obtain ⟨hfolders, hfile⟩ := List.append_inj' h rfl
  have hname : spec.className = spec'.className := by
    rw [← String.toList_inj]
    simpa using congrArg String.toList (List.singleton_inj.mp hfile)
  rw [segments, segments, hfolders, hname]

/-! ## The file -/

theorem intercalate_concat_append (names : List String) (last extension : String) :
    "/".intercalate (names ++ [last]) ++ extension =
      "/".intercalate (names ++ [last ++ extension]) := by
  cases names with
  | nil => simp
  | cons name names =>
    rw [String.intercalate_append_of_ne_nil (List.cons_ne_nil _ _) (List.cons_ne_nil _ _),
      String.intercalate_append_of_ne_nil (List.cons_ne_nil _ _) (List.cons_ne_nil _ _),
      String.intercalate_singleton, String.intercalate_singleton, String.append_assoc]

theorem file_eq_foldl (spec : ClassSpec) (mapping : NamespaceMapping) :
    (spec.place mapping).file = spec.entries.foldl Path.join mapping.sourceDir := by
  rw [entries, List.foldl_append]
  rfl

theorem file_eq (h : ofRequest request = .ok spec) (mapping : NamespaceMapping) :
    (spec.place mapping).file = Path.join mapping.sourceDir ("/".intercalate spec.entries) := by
  rw [file_eq_foldl]
  exact Path.foldl_join (by simp [entries])
    (fun entry hentry => (isEntry_of_mem_entries h entry hentry).toIsName) _

/-- The file lies below the source directory, in the folders and under the class name. -/
theorem namedPlace_file (h : ofRequest request = .ok spec) (mapping : NamespaceMapping)
    (machine : Machine) :
    Os.namedPlace machine (spec.place mapping).file =
      Os.namedPlace machine mapping.sourceDir ++ spec.entries := by
  rw [file_eq_foldl]
  exact Os.namedPlace_foldl_join machine (isEntry_of_mem_entries h) _

/-- Two classes have files in different places, unless all their folders and their names agree. -/
theorem segments_eq_of_namedPlace (h : ofRequest request = .ok spec)
    (h' : ofRequest request' = .ok spec') {machine : Machine}
    (hplace : Os.namedPlace machine (spec.place mapping).file =
      Os.namedPlace machine (spec'.place mapping).file) :
    spec.segments = spec'.segments := by
  rw [namedPlace_file h, namedPlace_file h'] at hplace
  exact entries_injective (List.append_cancel_left hplace)

/-! ## The qualified name -/

theorem qualifiedName_eq (spec : ClassSpec) (mapping : NamespaceMapping) :
    (spec.place mapping).qualifiedName =
      "\\".intercalate (mapping.rootNamespace :: spec.segments) := by
  rw [segments, ← List.cons_append,
    String.intercalate_append_of_ne_nil (List.cons_ne_nil _ _) (List.cons_ne_nil _ _),
    String.intercalate_singleton]
  rfl

end ClassSpec

/-- The file in which autoloading looks for a class: the source directory stands for the root
namespace, and slashes for the separators behind it. -/
def NamespaceMapping.autoloadFile? (mapping : NamespaceMapping) (qualifiedName : String) :
    Option Path :=
  (afterPrefix? (mapping.rootNamespace ++ "\\").toList qualifiedName.toList).map fun relative =>
    Path.join mapping.sourceDir (String.ofList (replaceChar '\\' ['/'] relative) ++ ".php")

namespace ClassSpec

variable {request request' : ClassRequest} {spec spec' : ClassSpec} {mapping : NamespaceMapping}

theorem autoloadFile?_qualifiedName (h : ofRequest request = .ok spec)
    (mapping : NamespaceMapping) :
    mapping.autoloadFile? (spec.place mapping).qualifiedName = some (spec.place mapping).file := by
  have hname : (spec.place mapping).qualifiedName.toList =
      (mapping.rootNamespace ++ "\\").toList ++
        ['\\'].intercalate (spec.segments.map String.toList) := by
    rw [qualifiedName_eq, String.intercalate_cons_of_ne_nil (by simp [segments]),
      String.toList_append, String.toList_intercalate]
    rfl
  have hpath : String.ofList (['/'].intercalate (spec.segments.map String.toList)) ++ ".php" =
      "/".intercalate spec.entries := by
    have hsegments : String.ofList (['/'].intercalate (spec.segments.map String.toList)) =
        "/".intercalate spec.segments := by
      rw [← String.toList_inj, String.toList_ofList, String.toList_intercalate]
      rfl
    rw [hsegments]
    exact intercalate_concat_append spec.folders spec.className ".php"
  have hseparators : ∀ segment ∈ spec.segments.map String.toList, '\\' ∉ segment := by
    simpa using fun segment => backslash_notMem_of_mem_segments h
  rw [NamespaceMapping.autoloadFile?, afterPrefix?_eq_some.mpr hname, Option.map_some,
    replaceChar_intercalate ['/'] hseparators, hpath, file_eq h]

theorem segments_eq_of_qualifiedName (h : ofRequest request = .ok spec)
    (h' : ofRequest request' = .ok spec')
    (hname : (spec.place mapping).qualifiedName = (spec'.place mapping).qualifiedName) :
    spec.segments = spec'.segments := by
  have hfile := autoloadFile?_qualifiedName h mapping
  rw [hname, autoloadFile?_qualifiedName h' mapping] at hfile
  exact segments_eq_of_namedPlace h h'
    (congrArg (Os.namedPlace (.ofTree (.directory []))) (Option.some.inj hfile).symm)

end ClassSpec

end PluginWorkshop
