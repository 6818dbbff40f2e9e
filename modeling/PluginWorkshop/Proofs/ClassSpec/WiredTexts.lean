import PluginWorkshop.ClassSpec.Placement
import PluginWorkshop.Proofs.Machine.Actions
import PluginWorkshop.Proofs.Php.WiredLines

/-!
# The texts that wire a class

The folders, the class name and the property of a class that is accepted are identifiers
(`ClassSpec.isIdentifier_of_ofRequest`), and its slug and name stand in quotes. So the declaration of
the property and the statement that fills it can be wired in, whatever the slug and the name are
(`PlacedClass.wirable_propertyDeclaration`, `PlacedClass.wirable_instantiation`).
-/

namespace PluginWorkshop

open Text Php Quoted

/-! ## Characters of names -/

/-- A character of a class name with its namespace. -/
def Php.isNameChar (c : Char) : Bool := isIdentifierPart c || c == '\\'

theorem Php.isPlain_of_isNameChar {c : Char} (h : isNameChar c = true) : isPlain c = true := by
  rw [isPlain, Bool.not_eq_true', ← Bool.not_eq_true, List.contains_iff_mem]
  intro hmem
  simp only [List.mem_cons, List.not_mem_nil, or_false] at hmem
  rcases hmem with rfl | rfl | rfl | rfl | rfl | rfl | rfl | rfl | rfl <;>
    exact absurd h (by decide)

theorem Php.space_notMem {name : List Char} (h : ∀ c ∈ name, isNameChar c = true) : ' ' ∉ name :=
  fun hmem => absurd (h _ hmem) (by decide)

theorem Php.isIdentifierPart_of_isIdentifierStart {c : Char} (h : isIdentifierStart c = true) :
    isIdentifierPart c = true := by
  rw [isIdentifierStart, Bool.or_eq_true] at h
  rw [isIdentifierPart, isLetterOrDigit]
  rcases h with hletter | hscore
  · simp [hletter]
  · simp [hscore]

theorem Php.isIdentifierPart_of_mem {name : List Char} {c : Char} (h : isIdentifier name = true)
    (hc : c ∈ name) : isIdentifierPart c = true := by
  cases name with
  | nil => cases hc
  | cons first rest =>
    rw [isIdentifier, Bool.and_eq_true, List.all_eq_true] at h
    rcases List.mem_cons.mp hc with rfl | hc
    · exact isIdentifierPart_of_isIdentifierStart h.1
    · exact h.2 c hc

theorem Php.isNameChar_of_isIdentifier {name : List Char} (h : isIdentifier name = true) :
    ∀ c ∈ name, isNameChar c = true := by
  intro c hc
  rw [isNameChar, isIdentifierPart_of_mem h hc, Bool.true_or]

/-! ## Names of a class that is accepted -/

namespace ClassSpec

variable {request : ClassRequest} {spec : ClassSpec}

theorem parsePath_eq_ok {classPath className : String} {folders : List String}
    (h : parsePath classPath = .ok (folders, className)) :
    pathSegments classPath = (folders ++ [className]).map String.toList ∧
      ∀ segment ∈ folders ++ [className], isIdentifier segment.toList = true := by
  rw [parsePath] at h
  cases hlast : (pathSegments classPath).getLast? with
  | none => simp [hlast] at h
  | some last =>
    cases hbad : (pathSegments classPath).find? (!isIdentifier ·) with
    | some bad => simp [hlast, hbad] at h
    | none =>
      simp only [hlast, hbad, Except.ok.injEq, Prod.mk.injEq] at h
      obtain ⟨rfl, rfl⟩ := h
      obtain ⟨front, hfront⟩ := List.getLast?_eq_some_iff.mp hlast
      have hsegments : pathSegments classPath =
          ((pathSegments classPath).dropLast.map String.ofList ++ [String.ofList last]).map
            String.toList := by
        simp [hfront, Function.comp_def]
      refine ⟨hsegments, ?_⟩
      rw [← List.forall_mem_map (P := fun name => isIdentifier name = true), ← hsegments]
      simpa using List.find?_eq_none.mp hbad

theorem isIdentifier_of_parseProperty {text name : String} (h : parseProperty text = .ok name) :
    isIdentifier name.toList = true := by
  rw [parseProperty] at h
  split_ifs at h with hname
  obtain rfl := Except.ok.inj h
  rw [String.toList_ofList]
  exact hname

/-- A reserved name is an identifier in its capitalized form too. -/
theorem isIdentifier_resolveVariable {name : String} (h : isIdentifier name.toList = true) :
    isIdentifier (resolveVariable name).toList = true := by
  have hreserved : ∀ name ∈ reservedNames, isIdentifier (capitalize name).toList = true := by decide
  rw [resolveVariable]
  split_ifs with hmem
  · exact hreserved name (List.contains_iff_mem.mp hmem)
  · exact h

/-- The pieces of a specification, of which the property comes from an identifier. -/
theorem exists_of_ofRequest (h : ofRequest request = .ok spec) :
    parsePath request.classPath = .ok (spec.folders, spec.className) ∧
      ∃ requested, isIdentifier requested.toList = true ∧
        spec.property = resolveVariable requested := by
  obtain ⟨⟨folders, className⟩, hpath, h⟩ := Except.bind_eq_ok.mp h
  -- However the property is named, the rest is the same.
  have hend : ∀ requested, isIdentifier requested.toList = true →
      (if request.kind.isRegistrable then
        (pure ⟨request.kind, folders, className, resolveVariable requested,
          some (request.slug.getD (lower className)),
          some (request.singularName.getD (capitalize className))⟩ : Except PluginError ClassSpec)
      else if request.slug.isSome ∨ request.singularName.isSome then
        throw (.invalidArgument (request.kind.label ++ " classes take no slug or name"))
      else pure ⟨request.kind, folders, className, resolveVariable requested, none, none⟩) =
        .ok spec →
      parsePath request.classPath = .ok (spec.folders, spec.className) ∧
        ∃ requested, isIdentifier requested.toList = true ∧
          spec.property = resolveVariable requested := by
    intro requested hrequested h
    split_ifs at h
    · obtain rfl := Except.ok.inj h
      exact ⟨hpath, requested, hrequested, rfl⟩
    · obtain rfl := Except.ok.inj h
      exact ⟨hpath, requested, hrequested, rfl⟩
  cases hproperty : request.property with
  | none =>
    simp only [hproperty] at h
    exact hend className ((parsePath_eq_ok hpath).2 className (by simp)) h
  | some text =>
    simp only [hproperty] at h
    obtain ⟨name, hname, h⟩ := Except.bind_eq_ok.mp h
    exact hend name (isIdentifier_of_parseProperty hname) h

/-- The folders, the class name and the property are identifiers. -/
theorem isIdentifier_of_ofRequest (h : ofRequest request = .ok spec) :
    isIdentifier spec.property.toList = true ∧
      ∀ segment ∈ spec.segments, isIdentifier segment.toList = true := by
  obtain ⟨hpath, requested, hrequested, hproperty⟩ := exists_of_ofRequest h
  rw [hproperty]
  exact ⟨isIdentifier_resolveVariable hrequested, (parsePath_eq_ok hpath).2⟩

/-- Beside the root namespace the qualified name consists of identifiers and separators. -/
theorem forall_mem_qualifiedName {p : Char → Prop} {mapping : NamespaceMapping}
    (hname : ∀ c, isNameChar c = true → p c)
    (hspec : ∀ segment ∈ spec.segments, isIdentifier segment.toList = true)
    (hroot : ∀ c ∈ mapping.rootNamespace.toList, p c) :
    ∀ c ∈ (spec.place mapping).qualifiedName.toList, p c := by
  have hsegment : ∀ segment ∈ spec.segments, ∀ c ∈ segment.toList, p c :=
    fun segment hsegment c hc => hname c (isNameChar_of_isIdentifier (hspec segment hsegment) c hc)
  intro c hc
  by_cases hseparator : c = '\\'
  · rw [hseparator]
    exact hname _ (by decide)
  have hsep : c ∉ "\\".toList := by simpa using hseparator
  change c ∈ ("\\".intercalate (mapping.rootNamespace :: spec.folders) ++ "\\" ++
    spec.className).toList at hc
  rw [String.toList_append, String.toList_append, List.mem_append, List.mem_append,
    mem_intercalate hsep] at hc
  rcases hc with (⟨piece, hpiece, hc⟩ | hc) | hc
  · rcases List.mem_cons.mp hpiece with rfl | hfolder
    · exact hroot c hc
    · exact hsegment piece (List.mem_append_left _ hfolder) c hc
  · exact absurd hc hsep
  · exact hsegment _ (by simp [segments]) c hc

end ClassSpec

/-! ## The texts of a class -/

namespace PlacedClass

variable {placed : PlacedClass} {textDomain : String} {rest code : Line}

/-- The property and the qualified name of the class may stand in code. -/
structure Named (placed : PlacedClass) : Prop where
  property : ∀ c ∈ placed.spec.property.toList, isNameChar c = true
  qualifiedName : ∀ c ∈ placed.qualifiedName.toList, isNameChar c = true

/-- The slug and the name stand on one line. -/
structure OneLine (placed : PlacedClass) : Prop where
  slug : ∀ slug ∈ placed.spec.slug, '\n' ∉ slug.toList
  singularName : ∀ name ∈ placed.spec.singularName, '\n' ∉ name.toList

theorem named_of_ofRequest {request : ClassRequest} {spec : ClassSpec} {mapping : NamespaceMapping}
    (hspec : ClassSpec.ofRequest request = .ok spec)
    (hroot : ∀ c ∈ mapping.rootNamespace.toList, isNameChar c = true) :
    (spec.place mapping).Named := by
  obtain ⟨hproperty, hsegments⟩ := ClassSpec.isIdentifier_of_ofRequest hspec
  exact ⟨isNameChar_of_isIdentifier hproperty,
    ClassSpec.forall_mem_qualifiedName (fun _ => id) hsegments hroot⟩

theorem inert_name_append {name : List Char} (hname : ∀ c ∈ name, isNameChar c = true)
    (h : Inert rest code) : Inert (name ++ rest) (name ++ code) :=
  h.name_append (fun c hc => isPlain_of_isNameChar (hname c hc)) (space_notMem hname)

/-- The declaration of the property is fit to be wired in. -/
theorem wirable_propertyDeclaration (h : placed.Named) :
    Wirable placed.propertyDeclaration.toList := by
  have hend : Inert ";".toList ";".toList := .literal (by decide) (by decide)
  have hinert := (inert_name_append h.property hend).code_append
    (show isInertCode "public $".toList = true by decide)
  rw [propertyDeclaration, String.toList_append, String.toList_append, List.append_assoc]
  exact ⟨⟨_, hinert⟩, 'p', _, rfl, by decide⟩

theorem wirable_target_append (h : placed.Named) (hrest : Inert rest code) :
    Wirable (("$this->" ++ placed.spec.property ++ " = new \\" ++ placed.qualifiedName).toList ++
      rest) := by
  have hname := (inert_name_append h.qualifiedName hrest).code_append
    (show isInertCode " = new \\".toList = true by decide)
  have htarget := (inert_name_append h.property hname).code_append
    (show isInertCode "$this->".toList = true by decide)
  simp only [String.toList_append, List.append_assoc]
  exact ⟨⟨_, htarget⟩, '$', _, rfl, by decide⟩

theorem newline_notMem_getD {text : Option String} (h : ∀ t ∈ text, '\n' ∉ t.toList) :
    '\n' ∉ (text.getD "").toList := by
  cases text with
  | none => simp
  | some t => exact h t rfl

theorem inert_registration_append (h : placed.OneLine) (htextDomain : '\n' ∉ textDomain.toList)
    (hrest : Inert rest code) :
    ∃ code, Inert ((placed.registration textDomain).toList ++ rest) code := by
  have hclose := hrest.code_append (show isInertCode ")".toList = true by decide)
  have hdomain := (hclose.quote_append htextDomain).space_quote.code_append
    (show isInertCode ",".toList = true by decide)
  have hname := (hdomain.quote_append (newline_notMem_getD h.singularName)).code_append
    (show isInertCode ", __(".toList = true by decide)
  have hslug := hname.quote_append (newline_notMem_getD h.slug)
  have hcomma : ", ".toList = ",".toList ++ [' '] := by decide
  simp only [registration, String.toList_append, List.append_assoc, hcomma, List.singleton_append]
  exact ⟨_, hslug⟩

/-- The statement that fills the property is fit to be wired in. -/
theorem wirable_instantiation (h : placed.Named) (hline : placed.OneLine)
    (htextDomain : '\n' ∉ textDomain.toList) {statement : String}
    (hstatement : placed.instantiation textDomain = some statement) :
    Wirable statement.toList := by
  have hopen : isInertCode "(".toList = true := by decide
  cases hkind : placed.spec.kind with
  | model =>
    simp only [instantiation, hkind, Option.some.injEq] at hstatement
    rw [← hstatement, String.toList_append]
    exact wirable_target_append h (.literal (by decide) (by decide))
  | postType =>
    simp only [instantiation, hkind, Option.some.injEq] at hstatement
    obtain ⟨code, hcode⟩ := inert_registration_append hline htextDomain
      (.literal (a := ", array(), $this->plugin);".toList) (by decide) (by decide))
    have hwirable := wirable_target_append h (hcode.code_append hopen)
    rw [← hstatement, String.toList_append, String.toList_append, String.toList_append]
    simpa only [List.append_assoc] using hwirable
  | taxonomy =>
    simp only [instantiation, hkind, Option.some.injEq] at hstatement
    have hend : Inert "), array(), $this->plugin);".toList "), array(), $this->plugin);".toList :=
      .literal (by decide) (by decide)
    have hpost : '\n' ∉ "post".toList := by decide
    have harguments := (hend.quote_append hpost).code_append
      (show isInertCode ", array(".toList = true by decide)
    obtain ⟨code, hcode⟩ := inert_registration_append hline htextDomain harguments
    have hwirable := wirable_target_append h (hcode.code_append hopen)
    have hsplit : ", array('post'), array(), $this->plugin);".toList =
        ", array(".toList ++ ((quote "post").toList ++ "), array(), $this->plugin);".toList) := by
      decide
    rw [← hstatement, String.toList_append, String.toList_append, String.toList_append, hsplit]
    simpa only [List.append_assoc] using hwirable
  | integrationStub => simp [instantiation, hkind] at hstatement

theorem exists_append_of_instantiation {statement : String}
    (hstatement : placed.instantiation textDomain = some statement) :
    ∃ rest, statement.toList = '$' :: rest := by
  rw [instantiation] at hstatement
  split at hstatement <;>
    simp only [Option.some.injEq, reduceCtorEq, String.append_assoc] at hstatement
  all_goals exact ⟨_, by rw [← hstatement, String.toList_append]; rfl⟩

/-- No statement declares a property. -/
theorem propertyDeclaration_ne_instantiation {other : PlacedClass} {statement : String}
    (hstatement : placed.instantiation textDomain = some statement) :
    other.propertyDeclaration.toList ≠ statement.toList := by
  obtain ⟨rest, hrest⟩ := exists_append_of_instantiation hstatement
  intro heq
  simp only [hrest, propertyDeclaration, String.append_assoc, String.toList_append] at heq
  have hhead : some 'p' = some '$' := congrArg List.head? heq
  exact absurd hhead (by decide)

end PlacedClass

end PluginWorkshop
