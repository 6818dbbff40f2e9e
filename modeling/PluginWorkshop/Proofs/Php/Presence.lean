import PluginWorkshop.Proofs.Php.Framing

/-!
# Texts that are there already

A text that wires a class is left out where some line of the file reads it, wherever that line stands
(`skips_iff_isPresent`). So after the edit the statement stands in the code of the initialization
method exactly if it was nowhere before or stood there already: a line of a comment or of another
method that reads it keeps it out (`not_standsInBody_of_skips`).
-/

namespace PluginWorkshop.Php

open Text

/-- No line is inserted for the text. -/
def PatchOutcome.Skips (outcome : PatchOutcome) (text : Line) : Prop :=
  ∀ change ∈ outcome.changes, ¬ change.Inserts text

/-- A line that starts in code reads the text. -/
def StandsInCode (text : Line) (lines : List Line) : Prop :=
  ∃ i line, lines[i]? = some line ∧ trim line = text ∧ stateBefore lines i = .code

/-- Such a line stands between those of the braces of the initialization method. -/
def StandsInBody (text : Line) (lines : List Line) : Prop :=
  ∃ marker opening closing, Body (rows lines) marker opening closing ∧
    ∃ i line, lines[i]? = some line ∧ opening < i ∧ i < closing ∧ trim line = text ∧
      stateBefore lines i = .code

/-! ## An inserted line among the others -/

section Insertion

variable {lines : List Line} {index : Nat} {line code text : Line}

theorem shifted_lt_shifted {i j : Nat} : shifted index i < shifted index j ↔ i < j := by
  rw [shifted, shifted]
  split_ifs <;> omega

/-- A line of the file is the inserted one or one from before. -/
theorem exists_insertIdx_iff {P : Nat → Line → Prop} (hindex : index ≤ lines.length) :
    (∃ i l, (lines.insertIdx index line)[i]? = some l ∧ P i l) ↔
      P index line ∨ ∃ i l, lines[i]? = some l ∧ P (shifted index i) l := by
  constructor
  · rintro ⟨i, l, hl, hP⟩
    rcases Nat.lt_trichotomy i index with hlt | rfl | hlt
    · refine Or.inr ⟨i, l, ?_, by rwa [shifted_of_lt hlt]⟩
      rwa [List.getElem?_insertIdx_of_lt hlt] at hl
    · rw [List.getElem?_insertIdx_self, if_pos hindex] at hl
      obtain rfl := Option.some.inj hl
      exact Or.inl hP
    · refine Or.inr ⟨i - 1, l, ?_, ?_⟩
      · rwa [List.getElem?_insertIdx_of_gt hlt] at hl
      · rwa [shifted_of_le (by omega), Nat.sub_add_cancel (by omega)]
  · rintro (hP | ⟨i, l, hl, hP⟩)
    · exact ⟨index, line, by rw [List.getElem?_insertIdx_self, if_pos hindex], hP⟩
    · exact ⟨shifted index i, l, by rwa [getElem?_insertIdx_shifted], hP⟩

/-- The state before the inserted line is the one before its place. -/
theorem stateBefore_insertIdx_self (hindex : index ≤ lines.length) (line : Line) :
    stateBefore (lines.insertIdx index line) index = stateBefore lines index := by
  obtain ⟨a, b, rfl, rfl⟩ := exists_append_of_le hindex
  rw [insertIdx_length_append, stateBefore_eq, stateBefore_eq, List.take_left, List.take_left]

theorem standsInCode_insertIdx (hindex : index ≤ lines.length)
    (hstate : stateBefore lines index = .code) (hline : Inert line code) :
    StandsInCode text (lines.insertIdx index line) ↔ trim line = text ∨ StandsInCode text lines := by
  rw [StandsInCode, exists_insertIdx_iff hindex, stateBefore_insertIdx_self hindex, hstate]
  refine or_congr (and_iff_left rfl) (exists_congr fun i => exists_congr fun l => ?_)
  rw [shifted, stateBefore_insertIdx hindex hstate hline.lexes.maskLine_eq]

/-- There is one initialization method. -/
theorem Body.unique {rows : List Row} {marker opening closing marker' opening' closing' : Nat}
    (h : Body rows marker opening closing) (h' : Body rows marker' opening' closing') :
    opening = opening' ∧ closing = closing' := by
  obtain rfl : marker = marker' := Except.ok.inj (h.marker_eq.symm.trans h'.marker_eq)
  simpa using h.body_eq.symm.trans h'.body_eq

theorem standsInBody_iff {marker opening closing : Nat} (h : Body (rows lines) marker opening closing) :
    StandsInBody text lines ↔ ∃ i line, lines[i]? = some line ∧ opening < i ∧ i < closing ∧
      trim line = text ∧ stateBefore lines i = .code := by
  refine ⟨?_, fun hstands => ⟨marker, opening, closing, h, hstands⟩⟩
  rintro ⟨marker', opening', closing', h', hstands⟩
  obtain ⟨rfl, rfl⟩ := h.unique h'
  exact hstands

theorem standsInBody_insertIdx {marker opening closing : Nat} (hindex : index ≤ lines.length)
    (hbody : Body (rows lines) marker opening closing) (hhead : index ≤ marker ∨ opening < index)
    (hstate : stateBefore lines index = .code) (hline : Inert line code) :
    StandsInBody text (lines.insertIdx index line) ↔
      (opening < index ∧ index ≤ closing ∧ trim line = text) ∨ StandsInBody text lines := by
  have hmask := hline.lexes.maskLine_eq
  have hbody' : Body (rows (lines.insertIdx index line)) (shifted index marker)
      (shifted index opening) (shifted index closing) := by
    rw [rows_insertIdx hindex hstate hmask]
    exact hbody.insertIdx hline.containsText_initializerMarker (fun c hc => hline.ne_brace hc)
      (by rwa [length_rows]) hhead
  have hopening : shifted index opening < index ↔ opening < index := by
    rw [shifted]
    split_ifs <;> omega
  have hclosing : index < shifted index closing ↔ index ≤ closing := by
    rw [shifted]
    split_ifs <;> omega
  rw [standsInBody_iff hbody', standsInBody_iff hbody, exists_insertIdx_iff hindex,
    stateBefore_insertIdx_self hindex, hstate, hopening, hclosing]
  refine or_congr (by simp) (exists_congr fun i => exists_congr fun l => ?_)
  rw [shifted_lt_shifted, shifted_lt_shifted, shifted,
    stateBefore_insertIdx hindex hstate hmask]

end Insertion

/-! ## A wiring -/

/-- The lines with the text inserted behind an indentation, unless `present` read it. -/
def insertMissing (present : List Line) (index : Nat) (indent text : Line) (lines : List Line) :
    List Line :=
  if isPresent text present then lines else lines.insertIdx index (indent ++ text)

section Wired

variable {lines : List Line} {D A : Nat} {indent property statement text : Line}

theorem insertLines_missing (source : SourceText) (present : List Line) (index : Nat)
    (indent text : Line) :
    (insertLines source (((missing text present).map (indent ++ ·)).map (Insertion.mk index))).lines =
      insertMissing present index indent text source.lines := by
  rw [missing, insertMissing]
  split_ifs <;> rfl

theorem Wireable.declareMissing (h : Wireable lines D A) (present : List Line) (hlt : A < D) (htext : Wirable text)
    (hindent : ∀ c ∈ indent, isSpaceOrTab c = true) :
    ∃ D', Wireable (insertMissing present D indent text lines) D' A := by
  rw [insertMissing]
  split_ifs
  · exact ⟨D, h⟩
  · obtain ⟨code, hline⟩ := htext.indented hindent
    have hwired := h.declare hline
    rw [shifted_of_lt hlt] at hwired
    exact ⟨_, hwired⟩

theorem Wireable.assignMissing (h : Wireable lines D A) (present : List Line) (hlt : D < A) (htext : Wirable text)
    (hindent : ∀ c ∈ indent, isSpaceOrTab c = true) :
    ∃ A', Wireable (insertMissing present A indent text lines) D A' := by
  rw [insertMissing]
  split_ifs
  · exact ⟨A, h⟩
  · obtain ⟨code, hline⟩ := htext.indented hindent
    have hwired := h.assign hline
    rw [shifted_of_lt hlt] at hwired
    exact ⟨_, hwired⟩

/-- A declaration is none of the statements of the method. -/
theorem Wireable.standsInBody_declareMissing {present : List Line} (h : Wireable lines D A)
    (htext : Wirable property)
    (hindent : ∀ c ∈ indent, isSpaceOrTab c = true) (hne : property ≠ statement) :
    StandsInBody statement (insertMissing present D indent property lines) ↔
      StandsInBody statement lines := by
  rw [insertMissing]
  split_ifs
  · rfl
  · obtain ⟨code, hline⟩ := htext.indented hindent
    obtain ⟨marker, opening, hbody, hhead⟩ := h.body
    rw [standsInBody_insertIdx (Nat.le_of_lt h.declareAt_lt) hbody hhead h.declareAt_code hline,
      htext.trim_indented hindent]
    simp [hne]

theorem Wireable.standsInBody_assignMissing {present : List Line} (h : Wireable lines D A)
    (htext : Wirable statement)
    (hindent : ∀ c ∈ indent, isSpaceOrTab c = true) :
    StandsInBody statement (insertMissing present A indent statement lines) ↔
      isPresent statement present = false ∨ StandsInBody statement lines := by
  rw [insertMissing]
  split_ifs with hpresent
  · simp [hpresent]
  · obtain ⟨code, hline⟩ := htext.indented hindent
    obtain ⟨marker, opening, hbody, -⟩ := h.body
    rw [standsInBody_insertIdx (Nat.le_of_lt h.assignAt_lt) hbody (Or.inr hbody.opening_lt)
      h.assignAt_code hline, htext.trim_indented hindent]
    simp [hpresent, hbody.opening_lt]

/-- A line inserted at a place in code stands in code. -/
theorem standsInCode_insertMissing {present : List Line} {index : Nat} (hindex : index ≤ lines.length)
    (hstate : stateBefore lines index = .code) (htext : Wirable property)
    (hindent : ∀ c ∈ indent, isSpaceOrTab c = true) :
    StandsInCode text (insertMissing present index indent property lines) ↔
      (isPresent property present = false ∧ property = text) ∨ StandsInCode text lines := by
  rw [insertMissing]
  split_ifs with hpresent
  · simp [hpresent]
  · obtain ⟨code, hline⟩ := htext.indented hindent
    rw [standsInCode_insertIdx hindex hstate hline, htext.trim_indented hindent]
    simp [hpresent]

/-- The lines that a wiring makes, the lower one of the two inserted first. -/
theorem exists_insertMissing {path : Path} {source : SourceText} {insertions : List Insertion}
    (hdeclare : propertyAnchor (rows source.lines) = .found D)
    (hassign : initializerEnd (rows source.lines) = .found A)
    (h : wiringInsertions path source.lines property statement = .ok insertions) :
    ∃ indentD indentA, (∀ c ∈ indentD, isSpaceOrTab c = true) ∧ (∀ c ∈ indentA, isSpaceOrTab c = true) ∧
      (insertLines source insertions).lines =
        if A < D then
          insertMissing source.lines A indentA statement
            (insertMissing source.lines D indentD property source.lines)
        else
          insertMissing source.lines D indentD property
            (insertMissing source.lines A indentA statement source.lines) := by
  rw [wiringInsertions_eq path hdeclare hassign] at h
  obtain rfl := Except.ok.inj h
  refine ⟨indentation (source.lines[D]?.getD []), bodyIndentation source.lines A,
    fun _ => isSpaceOrTab_of_mem_indentation, fun _ => isSpaceOrTab_of_mem_bodyIndentation, ?_⟩
  dsimp only
  split_ifs
  · rw [insertLines, List.foldr_append]
    exact (insertLines_missing _ _ _ _ _).trans
      (congrArg _ (insertLines_missing source source.lines D _ property))
  · rw [insertLines, List.foldr_append]
    exact (insertLines_missing _ _ _ _ _).trans
      (congrArg _ (insertLines_missing source source.lines A _ statement))

/-- After a wiring the statement stands in the method if it was nowhere before, or stood there; the
same goes for the declaration and the code of the file. -/
theorem stands_insertLines_iff {path : Path} {source : SourceText} {insertions : List Insertion}
    (hplaces : PlacesInCode source.lines) (hproperty : Wirable property)
    (hstatement : Wirable statement) (hne : property ≠ statement)
    (h : wiringInsertions path source.lines property statement = .ok insertions) :
    (StandsInBody statement (insertLines source insertions).lines ↔
      isPresent statement source.lines = false ∨ StandsInBody statement source.lines) ∧
    (StandsInCode property (insertLines source insertions).lines ↔
      isPresent property source.lines = false ∨ StandsInCode property source.lines) := by
  obtain ⟨D, A, hdeclare, hassign⟩ := exists_places_of_wiringInsertions h
  have hbase := hplaces.wireable hdeclare hassign
  obtain ⟨indentD, indentA, hindentD, hindentA, hlines⟩ := exists_insertMissing hdeclare hassign h
  rw [hlines]
  split_ifs with hlt
  · obtain ⟨D', hwired⟩ := hbase.declareMissing source.lines hlt hproperty hindentD
    rw [hwired.standsInBody_assignMissing hstatement hindentA,
      hbase.standsInBody_declareMissing hproperty hindentD hne,
      standsInCode_insertMissing (Nat.le_of_lt hwired.assignAt_lt) hwired.assignAt_code hstatement
        hindentA,
      standsInCode_insertMissing (Nat.le_of_lt hbase.declareAt_lt) hbase.declareAt_code hproperty
        hindentD]
    simp [hne.symm]
  · obtain ⟨A', hwired⟩ := hbase.assignMissing source.lines
      (Nat.lt_of_le_of_ne (Nat.not_lt.mp hlt) hbase.ne) hstatement hindentA
    rw [hwired.standsInBody_declareMissing hproperty hindentD hne,
      hbase.standsInBody_assignMissing hstatement hindentA,
      standsInCode_insertMissing (Nat.le_of_lt hwired.declareAt_lt) hwired.declareAt_code hproperty
        hindentD,
      standsInCode_insertMissing (Nat.le_of_lt hbase.assignAt_lt) hbase.assignAt_code hstatement
        hindentA]
    simp [hne.symm]

end Wired

/-! ## Texts left out -/

section Skips

variable {path : Path} {text : String} {outcome : PatchOutcome}

/-- What is inserted behind an indentation can be told from the line. -/
theorem LineChange.Inserts.unique {change : LineChange} {a b : Line} (ha : change.Inserts a)
    (hb : change.Inserts b) (hheadA : ∀ c ∈ a.head?, isSpaceOrTab c = false)
    (hheadB : ∀ c ∈ b.head?, isSpaceOrTab c = false) : a = b := by
  have hafter : ∀ {indent s : Line}, (∀ c ∈ indent, isSpaceOrTab c = true) →
      (∀ c ∈ s.head?, isSpaceOrTab c = false) → afterIndentation (indent ++ s) = s := by
    intro indent s hindent hhead
    rw [afterIndentation, List.dropWhile_append_of_pos hindent]
    cases s with
    | nil => rfl
    | cons c s => exact List.dropWhile_cons_of_neg (by simp [hhead c rfl])
  obtain ⟨-, indent, hindent, hline⟩ := ha
  obtain ⟨-, indent', hindent', hline'⟩ := hb
  rw [← hafter hindent hheadA, ← hline, hline', hafter hindent' hheadB]

/-- A text is left out if no change is reported for it. -/
theorem skips_iff {kept other : Option LineChange} {text : Line}
    (hperm : outcome.changes.Perm (kept.toList ++ other.toList))
    (hkept : ∀ change ∈ kept, change.Inserts text)
    (hother : ∀ change ∈ other, ¬ change.Inserts text) : outcome.Skips text ↔ kept = none := by
  constructor
  · intro hskips
    cases kept with
    | none => rfl
    | some change => exact absurd (hkept change rfl) (hskips change (hperm.mem_iff.mpr (by simp)))
  · rintro rfl change hchange
    exact hother change (by simpa using hperm.mem_iff.mp hchange)

theorem isSpaceOrTab_head_propertyDeclaration (placed : PlacedClass) :
    ∀ c ∈ placed.propertyDeclaration.toList.head?, isSpaceOrTab c = false := by
  intro c hc
  rw [PlacedClass.propertyDeclaration, String.toList_append, String.toList_append] at hc
  obtain rfl : 'p' = c := Option.some.inj hc
  rfl

theorem isSpaceOrTab_head_instantiation {placed : PlacedClass} {textDomain statement : String}
    (h : placed.instantiation textDomain = some statement) :
    ∀ c ∈ statement.toList.head?, isSpaceOrTab c = false := by
  obtain ⟨rest, hrest⟩ := PlacedClass.exists_append_of_instantiation h
  intro c hc
  rw [hrest] at hc
  obtain rfl : '$' = c := Option.some.inj hc
  rfl

theorem Wirable.isOneLine {text : Line} (h : Wirable text) : IsOneLine text := by
  obtain ⟨code, hinert⟩ := h.inert
  exact ⟨hinert.lexes.newline_notMem, by simp [hinert.getLast?_line]⟩

/-- A text is left out of a wiring exactly if some line reads it, wherever that line stands. Where the
places of the wiring lie in code, the statement so ends up in the initialization method exactly if no
line read it before or one of the method did; and the declaration in code exactly if no line read it
before or one in code did. -/
theorem skips_iff_isPresent {placed : PlacedClass} {textDomain statement : String}
    (hstatement : placed.instantiation textDomain = some statement)
    (hplan : plan path text (.wireClass placed.propertyDeclaration statement) = .ok outcome) :
    (outcome.Skips statement.toList ↔
      isPresent statement.toList (SourceText.parse text).lines = true) ∧
    (outcome.Skips placed.propertyDeclaration.toList ↔
      isPresent placed.propertyDeclaration.toList (SourceText.parse text).lines = true) ∧
    (Wirable placed.propertyDeclaration.toList → Wirable statement.toList →
      text.toList.getLast? ≠ some '\r' → PlacesInCode (SourceText.parse text).lines →
        (StandsInBody statement.toList (SourceText.parse outcome.content).lines ↔
          isPresent statement.toList (SourceText.parse text).lines = false ∨
            StandsInBody statement.toList (SourceText.parse text).lines) ∧
        (StandsInCode placed.propertyDeclaration.toList (SourceText.parse outcome.content).lines ↔
          isPresent placed.propertyDeclaration.toList (SourceText.parse text).lines = false ∨
            StandsInCode placed.propertyDeclaration.toList (SourceText.parse text).lines)) := by
  obtain ⟨insertions, hinsertions, rfl⟩ := plan_wireClass_eq_ok.mp hplan
  have hne : placed.propertyDeclaration.toList ≠ statement.toList :=
    PlacedClass.propertyDeclaration_ne_instantiation hstatement
  obtain ⟨declared, assigned, hperm, hdeclared, hassigned, hproperty, hassignment⟩ :=
    exists_changes_of_wiringInsertions hinsertions
  have hother : ∀ change : LineChange, change.Inserts placed.propertyDeclaration.toList →
      ¬ change.Inserts statement.toList := fun change hdeclaration hassignment =>
    hne (hdeclaration.unique hassignment (isSpaceOrTab_head_propertyDeclaration placed)
      (isSpaceOrTab_head_instantiation hstatement))
  refine ⟨?_, ?_, fun hwirable hwirable' hreturn hplaces => ?_⟩
  · rw [skips_iff (hperm.trans List.perm_append_comm) hassignment fun change hchange =>
      hother change (hproperty change hchange), hassigned]
  · rw [skips_iff hperm hproperty fun change hchange hinserts =>
      hother change hinserts (hassignment change hchange), hdeclared]
  · obtain ⟨hlines, hinsertable⟩ :=
      insertable_of_wiringInsertions hwirable.isOneLine hwirable'.isOneLine hinsertions
    have hs := hinsertable.sound (SourceText.sound_parse hreturn hlines)
    dsimp only
    rw [SourceText.parse_render hs]
    exact stands_insertLines_iff hplaces hwirable hwirable' hne hinsertions

end Skips

/-- The wiring of a model. -/
def fooWiring : Wiring where
  request := ⟨.model, "Foo", none, none, none⟩
  spec := ⟨.model, [], "Foo", "Foo", none, none⟩
  mapping := ⟨"P\\", "P", "/p/src"⟩
  textDomain := "p"
  statement := "$this->Foo = new \\P\\Foo($this->plugin);"
  accepted := by decide +kernel
  instantiated := by decide +kernel
  rootNamespace_chars := List.all_eq_true.mp (by decide +kernel)
  oneLine := ⟨by decide +kernel, by decide +kernel⟩
  textDomain_oneLine := by decide +kernel

/-- A plugin in which the statement of `fooWiring` is in a comment. -/
def outcommentedPlugin : String := "<?php
class P \x7b
    function __construct() \x7b
    \x7d
    function instantiate() \x7b
        /*
        $this->Foo = new \\P\\Foo($this->plugin);
        */
    \x7d
\x7d
"

/-- The outcome of wiring the model into it. -/
def outcommentedOutcome : PatchOutcome where
  content := "<?php
class P \x7b
    public $Foo;
    function __construct() \x7b
    \x7d
    function instantiate() \x7b
        /*
        $this->Foo = new \\P\\Foo($this->plugin);
        */
    \x7d
\x7d
"
  changes := [⟨3, .inserted, "    public $Foo;"⟩]

set_option maxRecDepth 4000 in
theorem plan_outcommentedPlugin :
    plan "p.php" outcommentedPlugin fooWiring.edit = .ok outcommentedOutcome := by
  have hparse : SourceText.parse outcommentedPlugin = _ := SourceText.parse_of_eq_ofList rfl
  unfold plan
  rw [hparse]
  decide +kernel

def outcommentedLines : List Line :=
  ["<?php", "class P \x7b", "    function __construct() \x7b", "    \x7d",
    "    function instantiate() \x7b", "        /*",
    "        $this->Foo = new \\P\\Foo($this->plugin);", "        */", "    \x7d", "\x7d"].map
    String.toList

set_option maxRecDepth 4000 in
theorem lines_outcommentedPlugin :
    (SourceText.parse outcommentedPlugin).lines = outcommentedLines := by
  have hparse : SourceText.parse outcommentedPlugin = _ := SourceText.parse_of_eq_ofList rfl
  rw [hparse]
  decide

theorem placesInCode_outcommentedPlugin :
    PlacesInCode (SourceText.parse outcommentedPlugin).lines := by
  rw [lines_outcommentedPlugin]
  exact placesInCode_of_le 2 8 4 (by decide +kernel) (by decide +kernel) (by decide +kernel)
    (by decide) (by decide) (by decide)

/-- The statement is left out, and the declaration is not. -/
theorem skips_iff_isPresent_outcommentedPlugin :
    let before := (SourceText.parse outcommentedPlugin).lines
    let after := (SourceText.parse outcommentedOutcome.content).lines
    let declaration := fooWiring.declaration.toList
    let statement := fooWiring.statement.toList
    plan "p.php" outcommentedPlugin fooWiring.edit = .ok outcommentedOutcome ∧
    (outcommentedOutcome.Skips statement ↔ isPresent statement before = true) ∧
    (outcommentedOutcome.Skips declaration ↔ isPresent declaration before = true) ∧
    (StandsInBody statement after ↔
      isPresent statement before = false ∨ StandsInBody statement before) ∧
    (StandsInCode declaration after ↔
      isPresent declaration before = false ∨ StandsInCode declaration before) :=
  have h := skips_iff_isPresent fooWiring.instantiated plan_outcommentedPlugin
  ⟨plan_outcommentedPlugin, h.1, h.2.1, h.2.2 fooWiring.wirable_declaration
    fooWiring.wirable_statement (by decide +kernel) placesInCode_outcommentedPlugin⟩

/-- A statement may be left out although none stands in the code of the method. -/
theorem not_standsInBody_of_skips : ¬ ∀ (path : Path) (text : String) (w : Wiring)
    (outcome : PatchOutcome), plan path text w.edit = .ok outcome →
      outcome.Skips w.statement.toList →
        StandsInBody w.statement.toList (SourceText.parse text).lines := by
  intro h
  have hskips : outcommentedOutcome.Skips fooWiring.statement.toList := by
    rintro change hchange ⟨-, indent, -, hline⟩
    obtain rfl := List.mem_singleton.mp hchange
    change "    public $Foo;".toList = _ at hline
    have hlength := congrArg List.length hline
    rw [List.length_append] at hlength
    have hshort : "    public $Foo;".toList.length < fooWiring.statement.toList.length := by decide
    omega
  obtain ⟨-, -, -, -, i, line, hline, -, -, htrim, hstate⟩ :=
    h "p.php" outcommentedPlugin fooWiring outcommentedOutcome plan_outcommentedPlugin hskips
  have hnone : ∀ i < 10, ∀ line ∈ outcommentedLines[i]?,
      trim line = fooWiring.statement.toList → stateBefore outcommentedLines i ≠ .code := by
    decide
  rw [lines_outcommentedPlugin] at hline hstate
  have hi : i < 10 := (List.getElem?_eq_some_iff.mp hline).1
  exact hnone i hi line hline htrim hstate

end PluginWorkshop.Php
