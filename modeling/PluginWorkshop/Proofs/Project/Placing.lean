import PluginWorkshop.Proofs.ClassSpec.ClassFiles
import PluginWorkshop.Proofs.Project.Making

/-!
# A class in its place

Where there is no file of a class yet, the class is placed, and its file, its namespace, its
qualified name, the text of its file and the statement for the bootstrap file are about the same class
(`PlacedClass.Agrees`, `PlacedClass.Written`). No other class has its file or its qualified name
(`Project.placeNew_agrees`).
-/

namespace PluginWorkshop

open Php

namespace PlacedClass

/-- The file, the namespace and the qualified name under a mapping. -/
structure Agrees (placed : PlacedClass) (mapping : NamespaceMapping) : Prop where
  /-- The file is the source directory with the folders and the class name behind it. -/
  file_eq : placed.file = Path.join mapping.sourceDir ("/".intercalate placed.spec.entries)
  /-- It lies below the source directory, wherever that is. -/
  namedPlace_file (machine : Machine) : Os.namedPlace machine placed.file =
    Os.namedPlace machine mapping.sourceDir ++ placed.spec.entries
  nameSpace_eq : placed.nameSpace = "\\".intercalate (mapping.rootNamespace :: placed.spec.folders)
  qualifiedName_eq : placed.qualifiedName = placed.nameSpace ++ "\\" ++ placed.spec.className
  /-- Autoloading looks for the class in its file. -/
  autoloadFile?_eq : mapping.autoloadFile? placed.qualifiedName = some placed.file

/-- The texts of a class of a kind that is made. The last two say how the file and the statement are
read, where the root namespace is a word of code. -/
structure Written (placed : PlacedClass) (mapping : NamespaceMapping) (textDomain : String)
    (statement : String) : Prop where
  /-- The class file has a line for the namespace and one for the class, and declares nothing else. -/
  content_eq : ∃ body, ClassBody (body.map String.toList) ∧ placed.content =
    (plainSource (classHeadLines placed.nameSpace placed.spec.className ++ body)).render
  instantiation_eq : placed.instantiation textDomain = some statement
  statement_eq : ∃ arguments, statement = "$this->" ++ placed.spec.property ++ " = new \\" ++
    placed.qualifiedName ++ "(" ++ arguments ++ ");"
  declared_content : isWord mapping.rootNamespace = true →
    declared "namespace" placed.content = [placed.nameSpace.toList] ∧
      declared "class" placed.content = [placed.spec.className.toList]
  assignedClass?_statement : isWord mapping.rootNamespace = true →
    assignedClass? statement.toList = some ('\\' :: placed.qualifiedName.toList)

end PlacedClass

namespace ClassSpec

variable {request : ClassRequest} {spec : ClassSpec}

theorem agrees_place (h : ofRequest request = .ok spec) (mapping : NamespaceMapping) :
    (spec.place mapping).Agrees mapping where
  file_eq := file_eq h mapping
  namedPlace_file := namedPlace_file h mapping
  nameSpace_eq := rfl
  qualifiedName_eq := rfl
  autoloadFile?_eq := autoloadFile?_qualifiedName h mapping

theorem isWordChar_of_mem_qualifiedName (h : ofRequest request = .ok spec)
    {mapping : NamespaceMapping} (hroot : isWord mapping.rootNamespace = true) :
    ∀ c ∈ (spec.place mapping).qualifiedName.toList, isWordChar c = true :=
  forall_mem_qualifiedName (fun _ => isWordChar_of_isNameChar) (isIdentifier_of_ofRequest h).2
    (isWordChar_of_isWord hroot)

theorem isWord_nameSpace (h : ofRequest request = .ok spec) {mapping : NamespaceMapping}
    (hroot : isWord mapping.rootNamespace = true) :
    isWord (spec.place mapping).nameSpace = true := by
  have hchars : ∀ c ∈ (spec.place mapping).nameSpace.toList, isWordChar c = true := by
    intro c hc
    refine isWordChar_of_mem_qualifiedName h hroot c ?_
    change c ∈ ((spec.place mapping).nameSpace ++ "\\" ++ spec.className).toList
    rw [String.append_assoc, String.toList_append]
    exact List.mem_append_left _ hc
  have hne : (spec.place mapping).nameSpace.toList ≠ [] := by
    rw [Ne, String.toList_eq_nil_iff]
    change "\\".intercalate (mapping.rootNamespace :: spec.folders) ≠ ""
    cases spec.folders with
    | nil => simpa using ne_empty_of_isWord hroot
    | cons folder folders =>
      rw [String.intercalate_cons_cons, String.append_assoc]
      exact mt String.append_eq_empty_iff.mp fun hempty => ne_empty_of_isWord hroot hempty.1
  rw [isWord, List.isEmpty_eq_false_iff.mpr hne, List.all_eq_true.mpr hchars]
  rfl

theorem exists_written (h : ofRequest request = .ok spec) (hkind : spec.kind ≠ .integrationStub)
    (mapping : NamespaceMapping) (textDomain : String) :
    ∃ statement, (spec.place mapping).Written mapping textDomain statement := by
  obtain ⟨body, hbody, hcontent⟩ := (spec.place mapping).exists_content_eq hkind
  obtain ⟨arguments, hstatement⟩ := (spec.place mapping).exists_instantiation hkind textDomain
  obtain ⟨hproperty, hsegments⟩ := isIdentifier_of_ofRequest h
  refine ⟨_, ⟨body, hbody, hcontent⟩, hstatement, ⟨arguments, rfl⟩, fun hroot => ?_, fun hroot => ?_⟩
  · have hclass := isWord_of_isIdentifier (hsegments spec.className (by simp [segments]))
    rw [hcontent]
    exact declared_classFile (isWord_nameSpace h hroot) hclass hbody
  · have hequals : '=' ∉ spec.property.toList := fun hmem =>
      absurd (isIdentifierPart_of_mem hproperty hmem) (by decide)
    exact PlacedClass.assignedClass?_eq hequals (isWordChar_of_mem_qualifiedName h hroot) arguments

end ClassSpec

namespace Project

variable {project : Project} {machine : Machine} {request : ClassRequest} {spec : ClassSpec}

/-- Where there is no file of a class that is accepted, the class is placed. Its folders and its name
are the pieces of the class path, and each names one entry of a directory; the file, the namespace
and the qualified name agree, and so do the texts of a class of a kind that is made. A class with
other folders or another name has its file in another place and another qualified name. -/
theorem placeNew_agrees (hspec : ClassSpec.ofRequest request = .ok spec)
    (hnew : Os.fileExists machine (spec.place project.mapping).file = false) :
    ∃ placed, project.placeNew spec machine = .ok placed machine ∧ placed.spec = spec ∧
      (spec.segments.map String.toList = ClassSpec.pathSegments request.classPath ∧
        ∀ segment ∈ spec.segments, Path.IsEntry segment) ∧
      placed.Agrees project.mapping ∧
      (spec.kind ≠ .integrationStub → ∀ textDomain,
        ∃ statement, placed.Written project.mapping textDomain statement) ∧
      ∀ {request' : ClassRequest} {spec' : ClassSpec}, ClassSpec.ofRequest request' = .ok spec' →
        spec'.segments ≠ spec.segments →
          (∀ machine', Os.namedPlace machine' (spec'.place project.mapping).file ≠
            Os.namedPlace machine' placed.file) ∧
          (spec'.place project.mapping).file ≠ placed.file ∧
          (spec'.place project.mapping).qualifiedName ≠ placed.qualifiedName := by
  have hplaced : project.placeNew spec machine = .ok (spec.place project.mapping) machine := by
    rw [placeNew, bind_of_ok (get_eq_ok.mpr ⟨rfl, rfl⟩), if_neg (by simp [hnew])]
    rfl
  have hplaces : ∀ {request' : ClassRequest} {spec' : ClassSpec},
      ClassSpec.ofRequest request' = .ok spec' → spec'.segments ≠ spec.segments →
        ∀ machine', Os.namedPlace machine' (spec'.place project.mapping).file ≠
          Os.namedPlace machine' (spec.place project.mapping).file :=
    fun hspec' hne machine' hplace => hne (ClassSpec.segments_eq_of_namedPlace hspec' hspec hplace)
  refine ⟨_, hplaced, rfl, ⟨ClassSpec.map_toList_segments hspec,
    fun segment hsegment => ClassSpec.isEntry_of_mem_segments hspec hsegment⟩,
    ClassSpec.agrees_place hspec project.mapping,
    fun hkind => ClassSpec.exists_written hspec hkind project.mapping, fun hspec' hne => ?_⟩
  exact ⟨hplaces hspec' hne, fun hfile => hplaces hspec' hne machine (by rw [hfile]),
    fun hname => hne (ClassSpec.segments_eq_of_qualifiedName hspec' hspec hname)⟩

/-- A class path with separators of all three kinds. -/
theorem placeNew_agrees_nested :
    let project : Project := ⟨"/my-plugin", "my-plugin", "/my-plugin/my-plugin.php",
      ⟨"/my-plugin/composer.json", [], [], "\x7b\x7d", "    "⟩,
      ⟨"My\\Plugin\\", "My\\Plugin", "/my-plugin/src"⟩⟩
    let request : ClassRequest :=
      ⟨.postType, "/Admin\\Users..Table", none, some "it's", some "Book */"⟩
    let spec : ClassSpec :=
      ⟨.postType, ["Admin", "Users"], "Table", "Table", some "it's", some "Book */"⟩
    let machine : Machine := .ofTree (.directory [])
    ClassSpec.ofRequest request = .ok spec ∧
      Os.fileExists machine (spec.place project.mapping).file = false ∧
      spec.kind ≠ .integrationStub ∧ isWord project.mapping.rootNamespace = true ∧
      ∃ placed, project.placeNew spec machine = .ok placed machine ∧
        Os.namedPlace machine placed.file =
          ["my-plugin", "src", "Admin", "Users", "Table.php"] ∧
        placed.qualifiedName = "My\\Plugin\\Admin\\Users\\Table" ∧
        project.mapping.autoloadFile? placed.qualifiedName = some placed.file ∧
        declared "namespace" placed.content = ["My\\Plugin\\Admin\\Users".toList] ∧
        declared "class" placed.content = ["Table".toList] := by
  intro project request spec machine
  have hspec : ClassSpec.ofRequest request = .ok spec := by decide
  have hnew : Os.fileExists machine (spec.place project.mapping).file = false := by decide
  have hkind : spec.kind ≠ .integrationStub := by decide
  have hroot : isWord project.mapping.rootNamespace = true := by decide
  obtain ⟨placed, hplaced, hof, -, hagrees, hwritten, -⟩ := placeNew_agrees hspec hnew
  obtain ⟨statement, hwritten⟩ := hwritten hkind project.textDomain
  have hnameSpace : placed.nameSpace = "My\\Plugin\\Admin\\Users" := by
    rw [hagrees.nameSpace_eq, hof]
    decide
  obtain ⟨hnameSpaces, hclasses⟩ := hwritten.declared_content hroot
  refine ⟨hspec, hnew, hkind, hroot, placed, hplaced, ?_, ?_, hagrees.autoloadFile?_eq, ?_, ?_⟩
  · rw [hagrees.namedPlace_file, hof]
    decide
  · rw [hagrees.qualifiedName_eq, hnameSpace, hof]
    decide
  · rw [hnameSpaces, hnameSpace]
  · rw [hclasses, hof]

end Project

end PluginWorkshop
