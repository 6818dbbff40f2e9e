import PluginWorkshop.Proofs.ClassSpec.WiredTexts
import PluginWorkshop.Proofs.Php.Places

/-!
# Wiring classes one after another

An edit that wires a class inserts a line at each of two places, unless it is there already. What it
leaves can be wired again (`Woven.wire`), so a run of such edits never fails once the first of them
is planned: the lines of a run stand at either place in the order of the run, and every edit of it is
recognised in the text it leaves (`exists_wired_of_plan`).
-/

namespace PluginWorkshop.Php

open Text

/-! ## Woven lines -/

section Woven

variable {base : List Line} {declareAt assignAt : Nat} {source : SourceText}
  {declarations assignments : List Line}

/-- A file with declarations and assignments woven into its lines, which can be wired again. -/
structure Woven (base : List Line) (declareAt assignAt : Nat) (source : SourceText)
    (declarations assignments : List Line) : Prop where
  sound : source.Sound
  lines_eq : source.lines = weave base declareAt assignAt declarations assignments
  wireable : Wireable source.lines
    (declaredAt declareAt assignAt declarations.length assignments.length)
    (assignedAt declareAt assignAt declarations.length assignments.length)

namespace Woven

theorem insert_sound (h : source.Sound) {index : Nat} {line code : Line}
    (hindex : index < source.lines.length) (hline : Inert line code) :
    (source.insert index line).Sound :=
  h.insert hindex hline.lexes.newline_notMem (by simp [hline.getLast?_line])

theorem declare (hbase : Wireable base declareAt assignAt)
    (h : Woven base declareAt assignAt source declarations assignments) {line code : Line}
    (hline : Inert line code) :
    Woven base declareAt assignAt
      (source.insert (declaredAt declareAt assignAt declarations.length assignments.length) line)
      (declarations ++ [line]) assignments := by
  obtain ⟨hdeclared, hassigned⟩ :=
    shifted_declaredAt declareAt assignAt declarations.length assignments.length
  have hmoved := h.wireable.declare hline
  rw [hdeclared, hassigned] at hmoved
  refine ⟨insert_sound h.sound h.wireable.declareAt_lt hline, ?_, ?_⟩
  · rw [SourceText.insert, h.lines_eq, weave_declare (Nat.le_of_lt hbase.declareAt_lt)]
  · rw [List.length_append, List.length_singleton]
    exact hmoved

theorem assign (hbase : Wireable base declareAt assignAt)
    (h : Woven base declareAt assignAt source declarations assignments) {line code : Line}
    (hline : Inert line code) :
    Woven base declareAt assignAt
      (source.insert (assignedAt declareAt assignAt declarations.length assignments.length) line)
      declarations (assignments ++ [line]) := by
  obtain ⟨hdeclared, hassigned⟩ :=
    shifted_assignedAt hbase.ne declarations.length assignments.length
  have hmoved := h.wireable.assign hline
  rw [hdeclared, hassigned] at hmoved
  refine ⟨insert_sound h.sound h.wireable.assignAt_lt hline, ?_, ?_⟩
  · rw [SourceText.insert, h.lines_eq, weave_assign (Nat.le_of_lt hbase.assignAt_lt)]
  · rw [List.length_append, List.length_singleton]
    exact hmoved

end Woven

end Woven

/-! ## One wiring -/

theorem isSpaceOrTab_of_mem_indentation {line : Line} {c : Char} (h : c ∈ indentation line) :
    isSpaceOrTab c = true :=
  List.mem_takeWhile_imp h

theorem isSpaceOrTab_of_mem_bodyIndentation {lines : List Line} {closing : Nat} {c : Char}
    (h : c ∈ bodyIndentation lines closing) : isSpaceOrTab c = true := by
  have hin : ∀ line : Line, c ∈ indentation line ++ indentUnit (indentation line) →
      isSpaceOrTab c = true := by
    intro line hmem
    rcases List.mem_append.mp hmem with hmem | hmem
    · exact isSpaceOrTab_of_mem_indentation hmem
    · have hunit : ∀ line, ∀ c ∈ indentUnit line, isSpaceOrTab c = true := by
        intro line
        rw [indentUnit]
        split_ifs <;> simp [isSpaceOrTab]
      exact hunit _ c hmem
  rw [bodyIndentation] at h
  split at h
  · split_ifs at h
    · exact hin _ h
    · exact isSpaceOrTab_of_mem_indentation h
  · exact hin _ h

theorem find_eq_ok {anchor : Anchor} {path : Path} {lines : List Line} {line : Nat} :
    anchor.find path lines = .ok line ↔ anchor.locate lines = .found line := by
  rw [Anchor.find]
  cases anchor.locate lines <;> simp [AnchorLookup.require]

/-- A text that is to be inserted, unless it is there already. -/
def missing (text : Line) (lines : List Line) : List Line :=
  if isPresent text lines then [] else [text]

theorem map_trim_missing {text indent : Line} (h : Wirable text)
    (hindent : ∀ c ∈ indent, isSpaceOrTab c = true) (lines : List Line) :
    ((missing text lines).map (indent ++ ·)).map trim = missing text lines := by
  rw [missing]
  split_ifs
  · rfl
  · simp [h.trim_indented hindent]

/-- What is missing is inserted at the places of the file, the upper line last. -/
theorem wiringInsertions_eq (path : Path) {lines : List Line} {D A : Nat}
    (hdeclare : propertyAnchor (rows lines) = .found D)
    (hassign : initializerEnd (rows lines) = .found A) (property statement : Line) :
    wiringInsertions path lines property statement = .ok (
      let declaration := ((missing property lines).map
        (indentation (lines[D]?.getD []) ++ ·)).map (Insertion.mk D)
      let assignment := ((missing statement lines).map
        (bodyIndentation lines A ++ ·)).map (Insertion.mk A)
      if A < D then assignment ++ declaration else declaration ++ assignment) := by
  have hdeclare' : Anchor.beforeConstructor.find path lines = .ok D := find_eq_ok.mpr hdeclare
  have hassign' : Anchor.endOfInitializer.find path lines = .ok A := find_eq_ok.mpr hassign
  rw [wiringInsertions, hdeclare', hassign', missing, missing]
  cases isPresent property lines <;> cases isPresent statement lines <;> rfl

/-- Lines are inserted only where both places are found. -/
theorem exists_places_of_wiringInsertions {path : Path} {lines : List Line}
    {property statement : Line} {insertions : List Insertion}
    (h : wiringInsertions path lines property statement = .ok insertions) :
    ∃ D A, propertyAnchor (rows lines) = .found D ∧ initializerEnd (rows lines) = .found A := by
  obtain ⟨D, hD, hrest⟩ := Except.bind_eq_ok.mp h
  obtain ⟨A, hA, -⟩ := Except.bind_eq_ok.mp hrest
  exact ⟨D, A, find_eq_ok.mp hD, find_eq_ok.mp hA⟩

theorem plan_wireClass_eq_ok {path : Path} {text property statement : String}
    {outcome : PatchOutcome} :
    plan path text (.wireClass property statement) = .ok outcome ↔ ∃ insertions,
      wiringInsertions path (SourceText.parse text).lines property.toList statement.toList =
        .ok insertions ∧
      outcome = ⟨(insertLines (SourceText.parse text) insertions).render,
        insertionChanges insertions⟩ := by
  rw [plan, Except.bind_eq_ok]
  exact exists_congr fun insertions => and_congr_right fun _ =>
    ⟨fun h => (Except.ok.inj h).symm, fun h => congrArg Except.ok h.symm⟩

namespace Woven

variable {base : List Line} {declareAt assignAt : Nat} {source : SourceText}
  {declarations assignments : List Line} {text indent : Line}

theorem declareMissing (hbase : Wireable base declareAt assignAt)
    (h : Woven base declareAt assignAt source declarations assignments) (htext : Wirable text)
    (hindent : ∀ c ∈ indent, isSpaceOrTab c = true) (lines : List Line) {D : Nat}
    (hD : declaredAt declareAt assignAt declarations.length assignments.length = D) :
    Woven base declareAt assignAt
      (insertLines source (((missing text lines).map (indent ++ ·)).map (Insertion.mk D)))
      (declarations ++ (missing text lines).map (indent ++ ·)) assignments := by
  rw [missing]
  split_ifs
  · simpa [insertLines] using h
  · obtain ⟨code, hline⟩ := htext.indented hindent
    rw [← hD]
    exact h.declare hbase hline

theorem assignMissing (hbase : Wireable base declareAt assignAt)
    (h : Woven base declareAt assignAt source declarations assignments) (htext : Wirable text)
    (hindent : ∀ c ∈ indent, isSpaceOrTab c = true) (lines : List Line) {A : Nat}
    (hA : assignedAt declareAt assignAt declarations.length assignments.length = A) :
    Woven base declareAt assignAt
      (insertLines source (((missing text lines).map (indent ++ ·)).map (Insertion.mk A)))
      declarations (assignments ++ (missing text lines).map (indent ++ ·)) := by
  rw [missing]
  split_ifs
  · simpa [insertLines] using h
  · obtain ⟨code, hline⟩ := htext.indented hindent
    rw [← hA]
    exact h.assign hbase hline

/-- Wiring inserts what is missing, and the file can be wired again. -/
theorem wire (hbase : Wireable base declareAt assignAt)
    (h : Woven base declareAt assignAt source declarations assignments) {property statement : Line}
    (hproperty : Wirable property) (hstatement : Wirable statement) (path : Path) :
    ∃ insertions declared assigned,
      wiringInsertions path source.lines property statement = .ok insertions ∧
      Woven base declareAt assignAt (insertLines source insertions) (declarations ++ declared)
        (assignments ++ assigned) ∧
      declared.map trim = missing property source.lines ∧
      assigned.map trim = missing statement source.lines := by
  obtain ⟨D, hD⟩ : ∃ D, declaredAt declareAt assignAt declarations.length assignments.length = D :=
    ⟨_, rfl⟩
  obtain ⟨A, hA⟩ : ∃ A, assignedAt declareAt assignAt declarations.length assignments.length = A :=
    ⟨_, rfl⟩
  have hdeclare : ∀ c ∈ indentation (source.lines[D]?.getD []), isSpaceOrTab c = true :=
    fun c hc => isSpaceOrTab_of_mem_indentation hc
  have hassign : ∀ c ∈ bodyIndentation source.lines A, isSpaceOrTab c = true :=
    fun c hc => isSpaceOrTab_of_mem_bodyIndentation hc
  have hinsertions := wiringInsertions_eq path (hD ▸ h.wireable.declareAt_eq)
    (hA ▸ h.wireable.assignAt_eq) property statement
  refine ⟨_, _, _, hinsertions, ?_, map_trim_missing hproperty hdeclare _,
    map_trim_missing hstatement hassign _⟩
  have hbelow := assignedAt_lt_declaredAt declareAt assignAt declarations.length assignments.length
  rw [hD, hA] at hbelow
  dsimp only
  split_ifs with hlt
  · -- The declaration goes in first, and does not move the place above it.
    have hdeclared := h.declareMissing hbase hproperty hdeclare source.lines hD
    have hA' : ∀ count, assignedAt declareAt assignAt count assignments.length = A := by
      intro count
      rw [← hA, assignedAt, assignedAt, if_pos (hbelow.mp hlt), if_pos (hbelow.mp hlt)]
    rw [insertLines, List.foldr_append]
    exact hdeclared.assignMissing hbase hstatement hassign source.lines (hA' _)
  · have hassigned := h.assignMissing hbase hstatement hassign source.lines hA
    have hle := fun hlt' => hlt (hbelow.mpr hlt')
    have hD' : ∀ count, declaredAt declareAt assignAt declarations.length count = D := by
      intro count
      rw [← hD, declaredAt, declaredAt, if_neg hle, if_neg hle]
    rw [insertLines, List.foldr_append]
    exact hassigned.declareMissing hbase hproperty hdeclare source.lines (hD' _)

end Woven

/-! ## Classes to be wired -/

/-- A class that is accepted and is of a kind that is wired. -/
structure Wiring where
  request : ClassRequest
  spec : ClassSpec
  mapping : NamespaceMapping
  textDomain : String
  /-- The statement that fills the property. -/
  statement : String
  accepted : ClassSpec.ofRequest request = .ok spec
  instantiated : (spec.place mapping).instantiation textDomain = some statement
  /-- The namespace consists of identifiers and separators. -/
  rootNamespace_chars : ∀ c ∈ mapping.rootNamespace.toList, isNameChar c = true
  oneLine : (spec.place mapping).OneLine
  textDomain_oneLine : '\n' ∉ textDomain.toList

namespace Wiring

/-- The declaration of the property. -/
def declaration (w : Wiring) : String := (w.spec.place w.mapping).propertyDeclaration

/-- The edit that wires the class. -/
def edit (w : Wiring) : BootstrapEdit := .wireClass w.declaration w.statement

theorem wirable_declaration (w : Wiring) : Wirable w.declaration.toList :=
  PlacedClass.wirable_propertyDeclaration (PlacedClass.named_of_ofRequest w.accepted w.rootNamespace_chars)

theorem wirable_statement (w : Wiring) : Wirable w.statement.toList :=
  PlacedClass.wirable_instantiation
    (PlacedClass.named_of_ofRequest w.accepted w.rootNamespace_chars) w.oneLine
    w.textDomain_oneLine w.instantiated

theorem declaration_ne_statement (v w : Wiring) : v.declaration.toList ≠ w.statement.toList :=
  PlacedClass.propertyDeclaration_ne_instantiation w.instantiated

end Wiring

/-! ## Texts that are not there yet -/

theorem isPresent_iff {text : Line} {lines : List Line} :
    isPresent text lines = true ↔ ∃ line ∈ lines, trim line = text := by
  simp [isPresent]

/-- The texts that are on none of the lines, each once, in the order in which they come first. -/
def unseen (lines texts : List Line) : List Line :=
  (texts.filter fun text => !isPresent text lines).eraseDups

theorem mem_unseen {lines texts : List Line} {text : Line} :
    text ∈ unseen lines texts ↔ text ∈ texts ∧ isPresent text lines = false := by
  simp [unseen]

theorem unseen_concat (lines texts : List Line) (text : Line) :
    unseen lines (texts ++ [text]) =
      unseen lines texts ++ if isPresent text lines = true ∨ text ∈ texts then [] else [text] := by
  rw [unseen, List.filter_append, List.eraseDups_append, unseen]
  congr 1
  by_cases hpresent : isPresent text lines = true
  · simp [hpresent, List.removeAll]
  · by_cases hmem : text ∈ texts
    · simp [hpresent, hmem, List.removeAll]
    · simp [hpresent, hmem, List.removeAll, List.eraseDups_cons]

/-! ## A run of wirings -/

/-- Plans edits one after another, each for the text that the one before it leaves. -/
def planAll (path : Path) (text : String) (edits : List BootstrapEdit) : Except PluginError String :=
  edits.foldlM (fun text edit => (plan path text edit).map PatchOutcome.content) text

/-- What a run of wirings makes of the lines of a file: at either place stand the texts of the run
that were not there before, in the order of the run. -/
structure Wired (base : List Line) (declareAt assignAt : Nat) (wirings : List Wiring)
    (source : SourceText) (declarations assignments : List Line) : Prop where
  woven : Woven base declareAt assignAt source declarations assignments
  declarations_eq : declarations.map trim = unseen base (wirings.map (·.declaration.toList))
  assignments_eq : assignments.map trim = unseen base (wirings.map (·.statement.toList))

namespace Wired

variable {base : List Line} {declareAt assignAt : Nat} {wirings : List Wiring}
  {source : SourceText} {declarations assignments : List Line} {text : String} {path : Path}

/-- Only texts of the run have come in. -/
theorem isPresent_iff_of_wired (h : Wired base declareAt assignAt wirings source declarations assignments)
    (line : Line) : isPresent line source.lines = true ↔
      isPresent line base = true ∨ line ∈ wirings.map (·.declaration.toList) ∨
        line ∈ wirings.map (·.statement.toList) := by
  have hwoven : isPresent line source.lines = true ↔
      isPresent line base = true ∨ line ∈ declarations.map trim ∨ line ∈ assignments.map trim := by
    simp only [isPresent_iff, h.woven.lines_eq, mem_weave, or_and_right, exists_or, List.mem_map]
  rw [hwoven, h.declarations_eq, h.assignments_eq, mem_unseen, mem_unseen]
  cases isPresent line base <;> simp

theorem isPresent_declaration (h : Wired base declareAt assignAt wirings source declarations assignments)
    (w : Wiring) : isPresent w.declaration.toList source.lines = true ↔
      isPresent w.declaration.toList base = true ∨
        w.declaration.toList ∈ wirings.map (·.declaration.toList) := by
  have hnone : w.declaration.toList ∉ wirings.map (·.statement.toList) := by
    intro hmem
    obtain ⟨v, -, hv⟩ := List.mem_map.mp hmem
    exact w.declaration_ne_statement v hv.symm
  rw [h.isPresent_iff_of_wired]
  simp only [hnone, or_false]

theorem isPresent_statement (h : Wired base declareAt assignAt wirings source declarations assignments)
    (w : Wiring) : isPresent w.statement.toList source.lines = true ↔
      isPresent w.statement.toList base = true ∨
        w.statement.toList ∈ wirings.map (·.statement.toList) := by
  have hnone : w.statement.toList ∉ wirings.map (·.declaration.toList) := by
    intro hmem
    obtain ⟨v, -, hv⟩ := List.mem_map.mp hmem
    exact v.declaration_ne_statement w hv
  rw [h.isPresent_iff_of_wired]
  simp only [hnone, false_or]

theorem missing_eq {line : Line} {lines texts : List Line} (h : isPresent line source.lines = true ↔
    isPresent line lines = true ∨ line ∈ texts) :
    unseen lines texts ++ missing line source.lines = unseen lines (texts ++ [line]) := by
  rw [unseen_concat, missing]
  simp only [h]

/-- A further wiring is planned. -/
theorem step (hbase : Wireable base declareAt assignAt)
    (h : Wired base declareAt assignAt wirings (.parse text) declarations assignments)
    (path : Path) (w : Wiring) :
    ∃ outcome declarations assignments, plan path text w.edit = .ok outcome ∧
      Wired base declareAt assignAt (wirings ++ [w]) (.parse outcome.content) declarations
        assignments ∧
      (SourceText.parse outcome.content).render = outcome.content := by
  obtain ⟨insertions, declared, assigned, hinsertions, hwoven, hdeclared, hassigned⟩ :=
    h.woven.wire hbase w.wirable_declaration w.wirable_statement path
  have hparse := SourceText.parse_render hwoven.sound
  refine ⟨⟨(insertLines (.parse text) insertions).render, insertionChanges insertions⟩,
    declarations ++ declared, assignments ++ assigned, ?_, ?_, ?_⟩
  · rw [Wiring.edit, plan, hinsertions]
    rfl
  · rw [hparse]
    refine ⟨hwoven, ?_, ?_⟩
    · rw [List.map_append, h.declarations_eq, hdeclared, missing_eq (h.isPresent_declaration w),
        List.map_append, List.map_singleton]
    · rw [List.map_append, h.assignments_eq, hassigned, missing_eq (h.isPresent_statement w),
        List.map_append, List.map_singleton]
  · rw [hparse]

/-- So is every further run. -/
theorem run (hbase : Wireable base declareAt assignAt) (path : Path) (rest : List Wiring)
    (h : Wired base declareAt assignAt wirings (.parse text) declarations assignments)
    (hrender : (SourceText.parse text).render = text) :
    ∃ after declarations assignments, planAll path text (rest.map Wiring.edit) = .ok after ∧
      Wired base declareAt assignAt (wirings ++ rest) (.parse after) declarations assignments ∧
      (SourceText.parse after).render = after := by
  induction rest generalizing wirings text declarations assignments with
  | nil => exact ⟨text, declarations, assignments, rfl, by rwa [List.append_nil], hrender⟩
  | cons w rest ih =>
    obtain ⟨outcome, declarations, assignments, hplan, hwired, hrender⟩ := h.step hbase path w
    obtain ⟨after, declarations, assignments, hrun, hwired, hrender⟩ := ih hwired hrender
    refine ⟨after, declarations, assignments, ?_, by simpa using hwired, hrender⟩
    rw [List.map_cons, planAll, List.foldlM_cons, hplan]
    exact hrun

/-- A wiring of the run changes nothing when it is repeated. -/
theorem plan_repeated (h : Wired base declareAt assignAt wirings (.parse text) declarations assignments)
    (hrender : (SourceText.parse text).render = text) (path : Path) {w : Wiring} (hw : w ∈ wirings) :
    plan path text w.edit = .ok ⟨text, []⟩ := by
  have hdeclared := (h.isPresent_declaration w).mpr (Or.inr (List.mem_map_of_mem hw))
  have hassigned := (h.isPresent_statement w).mpr (Or.inr (List.mem_map_of_mem hw))
  have hinsertions := wiringInsertions_eq path h.woven.wireable.declareAt_eq
    h.woven.wireable.assignAt_eq w.declaration.toList w.statement.toList
  rw [missing, missing, if_pos hdeclared, if_pos hassigned] at hinsertions
  have hnone : wiringInsertions path (SourceText.parse text).lines w.declaration.toList
      w.statement.toList = .ok [] := by
    rw [hinsertions]
    simp
  rw [Wiring.edit, plan, hnone]
  change Except.ok (PatchOutcome.mk (SourceText.parse text).render []) = _
  rw [hrender]

end Wired

/-- Where both places of a wiring are found, they lie in code, and the first does not lie below the
marker of the initialization method and at or above its opening brace. -/
structure PlacesInCode (lines : List Line) : Prop where
  declareAt_code : ∀ line, Anchor.beforeConstructor.locate lines = .found line →
    stateBefore lines line = .code
  assignAt_code : ∀ line, Anchor.endOfInitializer.locate lines = .found line →
    stateBefore lines line = .code
  outside_head : ∀ line marker opening closing,
    Anchor.beforeConstructor.locate lines = .found line →
      uniqueMarker initializerMarker (rows lines) = .ok marker →
        methodBody initializerMarker marker ((rows lines).map Row.code) = some (opening, closing) →
          line ≤ marker ∨ opening < line

/-- Places are in code with the constructor above the initialization method. -/
theorem placesInCode_of_le {lines : List Line} (declareAt assignAt marker : Nat)
    (hdeclare : Anchor.beforeConstructor.locate lines = .found declareAt)
    (hassign : Anchor.endOfInitializer.locate lines = .found assignAt)
    (hmarker : uniqueMarker initializerMarker (rows lines) = .ok marker) (hle : declareAt ≤ marker)
    (hdeclareCode : stateBefore lines declareAt = .code)
    (hassignCode : stateBefore lines assignAt = .code) : PlacesInCode lines := by
  refine ⟨fun line hline => ?_, fun line hline => ?_, fun line marker' opening closing hline hline' _ => ?_⟩
  · rwa [← AnchorLookup.found.inj (hdeclare.symm.trans hline)]
  · rwa [← AnchorLookup.found.inj (hassign.symm.trans hline)]
  · rw [← AnchorLookup.found.inj (hdeclare.symm.trans hline),
      ← Except.ok.inj (hmarker.symm.trans hline')]
    exact Or.inl hle

/-- An edit that wires a class is planned only where both places are found. -/
theorem exists_places_of_plan {path : Path} {text : String} {w : Wiring} {outcome : PatchOutcome}
    (h : plan path text w.edit = .ok outcome) :
    ∃ declareAt assignAt,
      Anchor.beforeConstructor.locate (SourceText.parse text).lines = .found declareAt ∧
      Anchor.endOfInitializer.locate (SourceText.parse text).lines = .found assignAt := by
  obtain ⟨insertions, hinsertions, -⟩ := plan_wireClass_eq_ok.mp h
  exact exists_places_of_wiringInsertions hinsertions

theorem PlacesInCode.wireable {lines : List Line} {declareAt assignAt : Nat}
    (h : PlacesInCode lines)
    (hdeclare : Anchor.beforeConstructor.locate lines = .found declareAt)
    (hassign : Anchor.endOfInitializer.locate lines = .found assignAt) :
    Wireable lines declareAt assignAt := by
  obtain ⟨marker, opening, hbody⟩ := initializerEnd_eq_found.mp hassign
  exact ⟨hdeclare, ⟨marker, opening, hbody, h.outside_head declareAt marker opening assignAt hdeclare
    hbody.marker_eq hbody.body_eq⟩, h.declareAt_code _ hdeclare, h.assignAt_code _ hassign⟩

/-- Once the first of a run of wirings is planned, all are, each for the text that the one before it
leaves. The lines that come in stand right above the block of the constructor and right above the
closing brace of the initialization method, in the order of the run, and both places are found again
below them. Repeating a wiring of the run changes nothing. -/
theorem exists_wired_of_plan {path : Path} {text : String} {first : Wiring} {outcome : PatchOutcome}
    (rest : List Wiring) (hreturn : text.toList.getLast? ≠ some '\r')
    (hplan : plan path text first.edit = .ok outcome)
    (hplaces : PlacesInCode (SourceText.parse text).lines) :
    ∃ declareAt assignAt after declarations assignments,
      Anchor.beforeConstructor.locate (SourceText.parse text).lines = .found declareAt ∧
      Anchor.endOfInitializer.locate (SourceText.parse text).lines = .found assignAt ∧
      planAll path text ((first :: rest).map Wiring.edit) = .ok after ∧
      Wired (SourceText.parse text).lines declareAt assignAt (first :: rest) (.parse after)
        declarations assignments ∧
      ∀ wiring ∈ first :: rest, plan path after wiring.edit = .ok ⟨after, []⟩ := by
  obtain ⟨declareAt, assignAt, hdeclare, hassign⟩ := exists_places_of_plan hplan
  have hbase := hplaces.wireable hdeclare hassign
  have hlines : (SourceText.parse text).lines ≠ [] :=
    List.ne_nil_of_length_pos (Nat.lt_of_le_of_lt (Nat.zero_le _) hbase.declareAt_lt)
  have hstart : Wired (SourceText.parse text).lines declareAt assignAt [] (.parse text) [] [] := by
    refine ⟨⟨SourceText.sound_parse hreturn hlines, (weave_nil _ _ _).symm, ?_⟩, rfl, rfl⟩
    simpa [declaredAt, assignedAt] using hbase
  obtain ⟨outcome', declarations, assignments, hfirst, hwired, hrender⟩ :=
    hstart.step hbase path first
  obtain ⟨after, declarations, assignments, hrun, hwired, hrender⟩ :=
    hwired.run hbase path rest hrender
  refine ⟨declareAt, assignAt, after, declarations, assignments, hdeclare, hassign, ?_, hwired,
    fun wiring hmem => hwired.plan_repeated hrender path hmem⟩
  rw [List.map_cons, planAll, List.foldlM_cons, hfirst]
  exact hrun

/-- A post type with a quote in its slug and the end of a comment in its name. -/
def bookWiring : Wiring where
  request := ⟨.postType, "Types/Book", none, some "book's", some "Book */"⟩
  spec := ⟨.postType, ["Types"], "Book", "Book", some "book's", some "Book */"⟩
  mapping := ⟨"My\\Plugin\\", "My\\Plugin", "/my-plugin/src"⟩
  textDomain := "my-plugin"
  statement := "$this->Book = new \\My\\Plugin\\Types\\Book('book\\'s', __('Book */', 'my-plugin'), array(), $this->plugin);"
  accepted := by decide +kernel
  instantiated := by decide +kernel
  rootNamespace_chars := List.all_eq_true.mp (by decide +kernel)
  oneLine := ⟨by decide +kernel, by decide +kernel⟩
  textDomain_oneLine := by decide +kernel

/-- A plugin with a docblock and an attribute above its constructor. -/
def documentedPlugin : String := "<?php
class Plugin \x7b
    /**
     * Starts.
     */
    #[Hook]
    public function __construct() \x7b
    \x7d
    public function instantiate() \x7b
    \x7d
\x7d
"

def documentedLines : List Line :=
  ["<?php", "class Plugin \x7b", "    /**", "     * Starts.", "     */", "    #[Hook]",
    "    public function __construct() \x7b", "    \x7d", "    public function instantiate() \x7b",
    "    \x7d", "\x7d"].map String.toList

set_option maxRecDepth 4000 in
theorem lines_documentedPlugin : (SourceText.parse documentedPlugin).lines = documentedLines := by
  have hparse : SourceText.parse documentedPlugin = _ := SourceText.parse_of_eq_ofList rfl
  rw [hparse]
  decide

theorem placesInCode_documentedPlugin :
    PlacesInCode (SourceText.parse documentedPlugin).lines := by
  rw [lines_documentedPlugin]
  exact placesInCode_of_le 2 9 8 (by decide +kernel) (by decide +kernel) (by decide +kernel)
    (by decide) (by decide) (by decide)

/-- The post type is wired into the plugin, then once more. -/
theorem exists_wired_documentedPlugin :
    documentedPlugin.toList.getLast? ≠ some '\r' ∧
    PlacesInCode (SourceText.parse documentedPlugin).lines ∧
    ∃ outcome, plan "plugin.php" documentedPlugin bookWiring.edit = .ok outcome ∧
      ∃ declareAt assignAt after declarations assignments,
        Anchor.beforeConstructor.locate (SourceText.parse documentedPlugin).lines =
          .found declareAt ∧
        Anchor.endOfInitializer.locate (SourceText.parse documentedPlugin).lines =
          .found assignAt ∧
        planAll "plugin.php" documentedPlugin ([bookWiring, bookWiring].map Wiring.edit) =
          .ok after ∧
        Wired (SourceText.parse documentedPlugin).lines declareAt assignAt
          [bookWiring, bookWiring] (.parse after) declarations assignments ∧
        ∀ wiring ∈ [bookWiring, bookWiring],
          plan "plugin.php" after wiring.edit = .ok ⟨after, []⟩ := by
  have hreturn : documentedPlugin.toList.getLast? ≠ some '\r' := by decide +kernel
  have hplanned : (plan "plugin.php" documentedPlugin bookWiring.edit).toOption.isSome = true := by
    decide +kernel
  cases hplan : plan "plugin.php" documentedPlugin bookWiring.edit with
  | error e => simp [hplan, Except.toOption] at hplanned
  | ok outcome =>
    exact ⟨hreturn, placesInCode_documentedPlugin, outcome, rfl,
      exists_wired_of_plan [bookWiring] hreturn hplan placesInCode_documentedPlugin⟩

end PluginWorkshop.Php
