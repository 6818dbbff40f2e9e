import PluginWorkshop.Proofs.ClassSpec.WiredTexts

/-!
# The requests that are accepted

A class path is a row of names with separators around them (`ClassPath.Spells`), and these names are
its segments (`ClassPath.spells_iff`). A request is accepted if its path is one, its property is a name
behind dollar signs, and it has a slug or a name for a kind that takes them; the property of the class
is the one asked for, unless that is reserved (`ClassSpec.ofRequest_accepts`).
-/

namespace PluginWorkshop

open Text Php

/-! ## Class paths -/

namespace ClassPath

open ClassSpec (isSeparator pathSegments)

/-- Separators and nothing else. -/
def IsSeparators (s : List Char) : Prop := ∀ c ∈ s, isSeparator c = true

/-- Names with separators in front of each, and separators or nothing behind the last one. -/
inductive SpellsRest : List (List Char) → List Char → Prop where
  | done {separators : List Char} : IsSeparators separators → SpellsRest [] separators
  | next {names : List (List Char)} {separators name rest : List Char} :
      IsSeparators separators → separators ≠ [] → isIdentifier name = true → SpellsRest names rest →
        SpellsRest (name :: names) (separators ++ (name ++ rest))

/-- A class path with its names: separators or nothing, a name, and the other names. -/
inductive Spells : List (List Char) → List Char → Prop where
  | mk {names : List (List Char)} {separators name rest : List Char} :
      IsSeparators separators → isIdentifier name = true → SpellsRest names rest →
        Spells (name :: names) (separators ++ (name ++ rest))

/-- The pieces between separators that are not empty. -/
def segmentsOf (path : List Char) : List (List Char) :=
  (splitWhere isSeparator path).filter (!·.isEmpty)

variable {name rest separators path : List Char} {names : List (List Char)}

theorem segmentsOf_separators_append (h : IsSeparators separators) (path : List Char) :
    segmentsOf (separators ++ path) = segmentsOf path := by
  induction separators with
  | nil => rfl
  | cons c separators ih =>
    rw [List.cons_append, segmentsOf, splitWhere, if_pos (h c List.mem_cons_self)]
    exact ih fun d hd => h d (List.mem_cons_of_mem c hd)

theorem segmentsOf_separators (h : IsSeparators separators) : segmentsOf separators = [] := by
  rw [← List.append_nil separators, segmentsOf_separators_append h]
  rfl

theorem segmentsOf_name_append (hne : name ≠ []) (hname : ∀ c ∈ name, isSeparator c = false)
    (hrest : ∀ c ∈ rest.head?, isSeparator c = true) :
    segmentsOf (name ++ rest) = name :: segmentsOf rest := by
  have hkept : (!name.isEmpty) = true := by simpa using hne
  cases rest with
  | nil =>
    rw [List.append_nil, segmentsOf, splitWhere_of_forall hname]
    simp [segmentsOf, splitWhere, hne]
  | cons c rest =>
    have hc := hrest c rfl
    have hseparator : IsSeparators [c] := List.forall_mem_singleton.mpr hc
    have hcons : segmentsOf (c :: rest) = segmentsOf rest :=
      segmentsOf_separators_append hseparator rest
    rw [hcons, segmentsOf, splitWhere_append_cons hc, splitWhere_of_forall hname, List.filter_append,
      List.filter_singleton, hkept]
    rfl

theorem isSeparator_of_mem (h : isIdentifier name = true) : ∀ c ∈ name, isSeparator c = false := by
  intro c hc
  have hpart := isIdentifierPart_of_mem h hc
  rw [Bool.eq_false_iff]
  intro hseparator
  simp only [isSeparator, Bool.or_eq_true, beq_iff_eq] at hseparator
  rcases hseparator with (rfl | rfl) | rfl <;> exact absurd hpart (by decide)

theorem ne_nil_of_isIdentifier (h : isIdentifier name = true) : name ≠ [] := by
  rintro rfl
  cases h

theorem SpellsRest.head? (h : SpellsRest names path) : ∀ c ∈ path.head?, isSeparator c = true := by
  cases h with
  | done hseparators => exact fun c hc => hseparators c (List.mem_of_mem_head? hc)
  | next hseparators hne =>
    rw [List.head?_append_of_ne_nil _ hne]
    exact fun c hc => hseparators c (List.mem_of_mem_head? hc)

theorem SpellsRest.segmentsOf_eq (h : SpellsRest names path) : segmentsOf path = names := by
  induction h with
  | done hseparators => exact segmentsOf_separators hseparators
  | next hseparators _ hname hrest ih =>
    rw [segmentsOf_separators_append hseparators,
      segmentsOf_name_append (ne_nil_of_isIdentifier hname) (isSeparator_of_mem hname) hrest.head?, ih]

theorem Spells.segmentsOf_eq (h : Spells names path) : segmentsOf path = names := by
  obtain ⟨hseparators, hname, hrest⟩ := h
  rw [segmentsOf_separators_append hseparators,
    segmentsOf_name_append (ne_nil_of_isIdentifier hname) (isSeparator_of_mem hname) hrest.head?,
    hrest.segmentsOf_eq]

theorem SpellsRest.isIdentifier (h : SpellsRest names path) :
    ∀ name ∈ names, isIdentifier name = true := by
  induction h with
  | done _ => simp
  | next _ _ hname _ ih => exact List.forall_mem_cons.mpr ⟨hname, ih⟩

theorem Spells.isIdentifier (h : Spells names path) :
    ∀ name ∈ names, isIdentifier name = true := by
  obtain ⟨-, hname, hrest⟩ := h
  exact List.forall_mem_cons.mpr ⟨hname, hrest.isIdentifier⟩

/-- A text starts with as many characters of one kind as there are. -/
theorem exists_span (p : Char → Bool) (s : List Char) : ∃ front rest, s = front ++ rest ∧
    (∀ c ∈ front, p c = true) ∧ ∀ c ∈ rest.head?, p c = false := by
  refine ⟨s.takeWhile p, s.dropWhile p, List.takeWhile_append_dropWhile.symm,
    fun _ => List.mem_takeWhile_imp, fun c hc => ?_⟩
  have hstop := List.head?_dropWhile_not p s
  rw [Option.mem_def.mp hc] at hstop
  simpa using hstop

/-- A path holds separators only, or its first segment stands behind separators and reaches up to
another one. -/
theorem exists_first (path : List Char) : IsSeparators path ∨
    ∃ separators name rest, path = separators ++ (name ++ rest) ∧ IsSeparators separators ∧
      name ≠ [] ∧ (∀ c ∈ name, isSeparator c = false) ∧ ∀ c ∈ rest.head?, isSeparator c = true := by
  obtain ⟨separators, body, rfl, hseparators, hbody⟩ := exists_span isSeparator path
  obtain ⟨name, rest, rfl, hname, hrest⟩ := exists_span (!isSeparator ·) body
  simp only [Bool.not_eq_true', Bool.not_eq_false'] at hname hrest
  by_cases hne : name = []
  · subst hne
    cases rest with
    | nil => exact Or.inl (by simpa [IsSeparators] using hseparators)
    | cons c rest => exact absurd (hrest c rfl) (by simp [hbody c rfl])
  · exact Or.inr ⟨separators, name, rest, rfl, hseparators, hne, hname, hrest⟩

/-- Where all segments are names, the path spells them. -/
theorem spellsRest_segmentsOf {path : List Char} (hhead : ∀ c ∈ path.head?, isSeparator c = true)
    (h : ∀ name ∈ segmentsOf path, Php.isIdentifier name = true) :
    SpellsRest (segmentsOf path) path := by
  rcases exists_first path with hseparators | ⟨separators, name, rest, rfl, hseparators, hne, hname,
    hrest⟩
  · rw [segmentsOf_separators hseparators]
    exact .done hseparators
  · rw [segmentsOf_separators_append hseparators, segmentsOf_name_append hne hname hrest,
      List.forall_mem_cons] at h
    have hfront : separators ≠ [] := by
      rintro rfl
      obtain ⟨c, tail, rfl⟩ := List.exists_cons_of_ne_nil hne
      exact absurd (hhead c rfl) (by simp [hname c List.mem_cons_self])
    have hlength := List.length_pos_iff.mpr hne
    rw [segmentsOf_separators_append hseparators, segmentsOf_name_append hne hname hrest]
    exact .next hseparators hfront h.1 (spellsRest_segmentsOf hrest h.2)
termination_by path.length
decreasing_by
  simp_all only [List.length_append]
  omega

/-- A path spells names if and only if they are its segments, there is one at least, and they are
identifiers. -/
theorem spells_iff : Spells names path ↔
    segmentsOf path = names ∧ names ≠ [] ∧ ∀ name ∈ names, Php.isIdentifier name = true := by
  constructor
  · intro h
    refine ⟨h.segmentsOf_eq, ?_, h.isIdentifier⟩
    cases h
    exact List.cons_ne_nil _ _
  · rintro ⟨rfl, hne, h⟩
    rcases exists_first path with hseparators | ⟨separators, name, rest, rfl, hseparators, hname',
      hname, hrest⟩
    · exact absurd (segmentsOf_separators hseparators) hne
    · rw [segmentsOf_separators_append hseparators, segmentsOf_name_append hname' hname hrest] at h ⊢
      rw [List.forall_mem_cons] at h
      exact .mk hseparators h.1 (spellsRest_segmentsOf hrest h.2)

end ClassPath

/-! ## Requests -/

namespace ClassSpec

variable {request : ClassRequest} {spec : ClassSpec}

/-- The folders and the class name are the names that the class path spells. -/
theorem parsePath_eq_ok_iff {classPath className : String} {folders : List String} :
    parsePath classPath = .ok (folders, className) ↔
      ClassPath.Spells ((folders ++ [className]).map String.toList) classPath.toList := by
  rw [ClassPath.spells_iff]
  change _ ↔ pathSegments classPath = _ ∧ _
  constructor
  · intro h
    obtain ⟨hsegments, hnames⟩ := parsePath_eq_ok h
    rw [← List.forall_mem_map (P := fun name => isIdentifier name = true)] at hnames
    exact ⟨hsegments, by simp, hnames⟩
  · rintro ⟨hsegments, -, hnames⟩
    have hbad : ((folders ++ [className]).map String.toList).find? (!isIdentifier ·) = none :=
      List.find?_eq_none.mpr fun name hname => by simpa using hnames name hname
    rw [parsePath, hsegments]
    simp only [hbad]
    simp [Function.comp_def]

/-- The name of the property that a request asks for: the one that stands behind dollar signs, or else
the class name. -/
def requestedName (request : ClassRequest) (className : String) : String :=
  match request.property with
  | some text => String.ofList (text.toList.dropWhile (· == '$'))
  | none => className

/-- The name of the property, if it can be one. -/
def requestedProperty (request : ClassRequest) (className : String) : Except PluginError String :=
  match request.property with
  | some text => parseProperty text
  | none => .ok className

theorem requestedProperty_eq_ok_iff {className requested : String} :
    requestedProperty request className = .ok requested ↔
      requestedName request className = requested ∧
        ∀ text ∈ request.property, isIdentifier (text.toList.dropWhile (· == '$')) = true := by
  rw [requestedProperty, requestedName]
  cases request.property with
  | none => simp
  | some text =>
    simp only [parseProperty, Option.mem_def, Option.some.injEq, forall_eq']
    split_ifs with h
    · simp [h]
    · simp [h]

/-- A slug and a name are asked for only where a class has them. -/
def TakesTexts (request : ClassRequest) : Prop :=
  request.slug = none ∧ request.singularName = none ∨
    request.kind = .postType ∨ request.kind = .taxonomy

theorem isRegistrable_iff {kind : ClassKind} :
    kind.isRegistrable = true ↔ kind = .postType ∨ kind = .taxonomy := by
  cases kind <;> decide

/-- The slug of a class that is asked for. -/
def requestedSlug (request : ClassRequest) (className : String) : Option String :=
  if request.kind.isRegistrable then some (request.slug.getD (lower className)) else none

/-- The name of a class that is asked for. -/
def requestedTitle (request : ClassRequest) (className : String) : Option String :=
  if request.kind.isRegistrable then some (request.singularName.getD (capitalize className))
  else none

/-- The class with these folders and this name, for a request that takes the texts it asks for. -/
def assemble (request : ClassRequest) (folders : List String) (className requested : String) :
    Except PluginError ClassSpec :=
  if request.kind.isRegistrable then
    .ok ⟨request.kind, folders, className, resolveVariable requested,
      some (request.slug.getD (lower className)),
      some (request.singularName.getD (capitalize className))⟩
  else if request.slug.isSome ∨ request.singularName.isSome then
    .error (.invalidArgument (request.kind.label ++ " classes take no slug or name"))
  else .ok ⟨request.kind, folders, className, resolveVariable requested, none, none⟩

theorem assemble_eq_ok_iff {folders : List String} {className requested : String} :
    assemble request folders className requested = .ok spec ↔ TakesTexts request ∧
      ⟨request.kind, folders, className, resolveVariable requested,
        requestedSlug request className, requestedTitle request className⟩ = spec := by
  rw [assemble, TakesTexts, ← isRegistrable_iff, requestedSlug, requestedTitle]
  split_ifs with hkind htexts
  · simp [hkind]
  · have hnot : ¬ (request.slug = none ∧ request.singularName = none) := by
      rintro ⟨hslug, htitle⟩
      simp [hslug, htitle] at htexts
    simp [hnot, hkind]
  · simpa [hkind] using fun _ => not_or.mp htexts

theorem ofRequest_eq (request : ClassRequest) : ofRequest request = (do
    let (folders, className) ← parsePath request.classPath
    let requested ← requestedProperty request className
    assemble request folders className requested) := by
  rw [ofRequest]
  refine bind_congr fun (folders, className) => ?_
  dsimp only
  rw [requestedProperty]
  cases request.property <;> rfl

/-- What a request is made into, and when. -/
theorem ofRequest_eq_ok_iff : ofRequest request = .ok spec ↔
    ClassPath.Spells (spec.segments.map String.toList) request.classPath.toList ∧
      (∀ text ∈ request.property, isIdentifier (text.toList.dropWhile (· == '$')) = true) ∧
      TakesTexts request ∧
      ⟨request.kind, spec.folders, spec.className,
        resolveVariable (requestedName request spec.className),
        requestedSlug request spec.className, requestedTitle request spec.className⟩ = spec := by
  simp only [ofRequest_eq, Except.bind_eq_ok, requestedProperty_eq_ok_iff, assemble_eq_ok_iff,
    Prod.exists, parsePath_eq_ok_iff]
  constructor
  · rintro ⟨folders, className, hpath, _, ⟨rfl, hproperty⟩, htexts, rfl⟩
    exact ⟨hpath, hproperty, htexts, rfl⟩
  · rintro ⟨hpath, hproperty, htexts, hspec⟩
    exact ⟨spec.folders, spec.className, hpath, _, ⟨rfl, hproperty⟩, htexts, hspec⟩

theorem exists_ofRequest {names : List (List Char)}
    (hpath : ClassPath.Spells names request.classPath.toList)
    (hproperty : ∀ text ∈ request.property, isIdentifier (text.toList.dropWhile (· == '$')) = true)
    (htexts : TakesTexts request) : ∃ spec, ofRequest request = .ok spec := by
  obtain ⟨front, last, rfl⟩ := (List.eq_nil_or_concat names).resolve_left (by
    rintro rfl
    cases hpath)
  refine ⟨⟨request.kind, front.map String.ofList, String.ofList last,
    resolveVariable (requestedName request (String.ofList last)),
    requestedSlug request (String.ofList last), requestedTitle request (String.ofList last)⟩,
    ofRequest_eq_ok_iff.mpr ⟨?_, hproperty, htexts, rfl⟩⟩
  simpa [segments, Function.comp_def] using hpath

/-- A reserved name is not reserved in its capitalized form. -/
theorem resolveVariable_notMem (name : String) : resolveVariable name ∉ reservedNames := by
  have hreserved : ∀ name ∈ reservedNames, capitalize name ∉ reservedNames := by decide
  rw [resolveVariable]
  split_ifs with hmem
  · exact hreserved name (List.contains_iff_mem.mp hmem)
  · exact fun hname => hmem (List.contains_iff_mem.mpr hname)

/-- A request is accepted if and only if its class path spells names, its property is a name behind
dollar signs, and it asks for a slug or a name only where a class has them. The names that the path
spells are the segments of the class. Its property is a name that is not reserved: the one asked for,
or that one capitalized if it is reserved. -/
theorem ofRequest_accepts (request : ClassRequest) :
    ((∃ spec, ofRequest request = .ok spec) ↔
      (∃ names, ClassPath.Spells names request.classPath.toList) ∧
        (∀ text ∈ request.property,
          isIdentifier (text.toList.dropWhile (· == '$')) = true) ∧ TakesTexts request) ∧
      ∀ spec, ofRequest request = .ok spec →
        (∀ names, ClassPath.Spells names request.classPath.toList ↔
          spec.segments.map String.toList = names) ∧
        isIdentifier spec.property.toList = true ∧ spec.property ∉ reservedNames ∧
        spec.property = (if requestedName request spec.className ∈ reservedNames then
          capitalize (requestedName request spec.className)
        else requestedName request spec.className) := by
  constructor
  · constructor
    · rintro ⟨spec, h⟩
      obtain ⟨hpath, hproperty, htexts, -⟩ := ofRequest_eq_ok_iff.mp h
      exact ⟨⟨_, hpath⟩, hproperty, htexts⟩
    · rintro ⟨⟨names, hpath⟩, hproperty, htexts⟩
      exact exists_ofRequest hpath hproperty htexts
  · intro spec h
    obtain ⟨hpath, -, -, hspec⟩ := ofRequest_eq_ok_iff.mp h
    have hresolved : spec.property = resolveVariable (requestedName request spec.className) :=
      congrArg ClassSpec.property hspec.symm
    refine ⟨fun names => ⟨fun hnames => ?_, fun hnames => hnames ▸ hpath⟩,
      (isIdentifier_of_ofRequest h).1, ?_, ?_⟩
    · exact hpath.segmentsOf_eq.symm.trans hnames.segmentsOf_eq
    · rw [hresolved]
      exact resolveVariable_notMem _
    · rw [hresolved, resolveVariable]
      simp only [List.contains_iff_mem]

/-- A path with separators of all kinds at both ends, and a reserved name behind dollar signs. -/
theorem ofRequest_accepts_reserved :
    let request : ClassRequest := ⟨.taxonomy, "\\.Admin//_2.Users/", some "$$post", none, some "'"⟩
    ∃ spec, ofRequest request = .ok spec ∧
      ClassPath.Spells ["Admin".toList, "_2".toList, "Users".toList] request.classPath.toList ∧
      spec.property ∉ reservedNames ∧ spec.property = "Post" := by
  intro request
  have hpath : ClassPath.Spells ["Admin".toList, "_2".toList, "Users".toList]
      request.classPath.toList :=
    ClassPath.spells_iff.mpr (by decide)
  have haccepted := ((ofRequest_accepts request).1.mpr
    ⟨⟨_, hpath⟩, by decide, Or.inr (Or.inr rfl)⟩)
  obtain ⟨spec, h⟩ := haccepted
  obtain ⟨-, -, hreserved, hproperty⟩ := (ofRequest_accepts request).2 spec h
  have hname : requestedName request spec.className = "post" :=
    show String.ofList ("$$post".toList.dropWhile (· == '$')) = "post" from by decide
  refine ⟨spec, h, hpath, hreserved, hproperty.trans ?_⟩
  rw [hname]
  decide

end ClassSpec

end PluginWorkshop
