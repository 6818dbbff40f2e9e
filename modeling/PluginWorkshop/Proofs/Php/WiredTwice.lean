import PluginWorkshop.Proofs.Php.Presence
import PluginWorkshop.Proofs.Php.TrailingBlanks

/-!
# A class that is wired twice

A text that stands on a line of its own is found there again once the lines are put together and
read (`SourceText.isPresent_parse_render`), whatever the other lines are. So a class is not wired a
second time, unless a line feed stands in its statement: then the statement takes up two lines, no
line reads it, and it is inserted each time (`isUnchanged_iff_of_plan_twice`). A line feed stands in
the statement if it stands in one of the texts that are taken over as they are given
(`PlacedClass.newline_mem_instantiation`): of these none is checked when the class is accepted.
-/

namespace PluginWorkshop

open Text

/-! ## Lines that are read again -/

namespace Php

namespace SourceText

variable {s : SourceText} {line : Line}

theorem exists_piece_of_mem_lines (hline : line ∈ s.lines) (hnewline : '\n' ∉ line) :
    line ++ s.lineEnding.return? ∈ splitOn '\n' s.renderChars ∨
      line ∈ splitOn '\n' s.renderChars := by
  have hreturn := s.lineEnding.newline_notMem_return?
  rw [renderChars]
  split_ifs
  · rw [join_append_ending _ (List.ne_nil_of_mem hline), LineEnding.chars_eq]
    exact mem_splitOn_join hreturn hnewline (List.mem_append_left _ hline)
  · rw [List.append_nil, LineEnding.chars_eq]
    exact mem_splitOn_join hreturn hnewline hline

/-- Of the pieces of a text only an empty one is no line. -/
theorem mem_linesOf {text piece : List Char} (h : piece ∈ splitOn '\n' text) (hne : piece ≠ []) :
    dropReturn piece ∈ linesOf text := by
  refine List.mem_map_of_mem ?_
  split_ifs with hdrop
  · have hlast : ∃ front, splitOn '\n' text = front ++ [[]] := by
      rcases Bool.or_eq_true_iff.mp hdrop with hempty | hends
      · rw [List.isEmpty_iff.mp hempty]
        exact ⟨[], rfl⟩
      · obtain ⟨front, rfl⟩ := List.getLast?_eq_some_iff.mp (beq_iff_eq.mp hends)
        exact ⟨splitOn '\n' front, splitOn_append_cons front []⟩
    obtain ⟨front, hfront⟩ := hlast
    rw [hfront, List.mem_append, List.mem_singleton] at h
    rw [hfront, List.dropLast_concat]
    exact h.resolve_right hne
  · exact h

theorem trim_append_return? (ending : LineEnding) (line : Line) :
    trim (line ++ ending.return?) = trim line := by
  cases ending with
  | lf => exact congrArg trim (List.append_nil line)
  | crlf => exact trim_concat rfl line

/-- What a line reads is read on some line of the file. -/
theorem isPresent_parse_render (hline : line ∈ s.lines) (hnewline : '\n' ∉ line)
    (hne : trim line ≠ []) : isPresent (trim line) (parse s.render).lines = true := by
  obtain ⟨piece, hpiece, htrim⟩ : ∃ piece ∈ splitOn '\n' s.renderChars, trim piece = trim line := by
    rcases exists_piece_of_mem_lines hline hnewline with hpiece | hpiece
    · exact ⟨_, hpiece, trim_append_return? _ line⟩
    · exact ⟨_, hpiece, rfl⟩
  have hsolid : piece ≠ [] := by
    rintro rfl
    exact hne htrim.symm
  rw [isPresent_iff, lines_parse_render]
  exact ⟨dropReturn piece, mem_linesOf hpiece hsolid, by rw [trim_dropReturn, htrim]⟩

/-- No line of a file reads a text with a line feed. -/
theorem isPresent_eq_false_of_newline {content : String} {text : Line} (h : '\n' ∈ text) :
    isPresent text (parse content).lines = false := by
  rw [Bool.eq_false_iff, Ne, isPresent_iff]
  rintro ⟨line, hline, rfl⟩
  exact newline_notMem_of_mem_lines hline ((trim_sublist line).subset h)

end SourceText

/-! ## Inserted lines -/

section Inserted

variable {source : SourceText} {insertions : List Insertion} {line : Line}

theorem mem_insertLines_of_mem (h : line ∈ source.lines) :
    line ∈ (insertLines source insertions).lines := by
  induction insertions with
  | nil => exact h
  | cons i insertions ih =>
    rw [insertLines_cons, SourceText.insert]
    exact List.subset_insertIdx _ _ _ ih

theorem mem_insertLines {i : Insertion} (h : i ∈ insertions)
    (hindex : i.index ≤ source.lines.length) : i.line ∈ (insertLines source insertions).lines := by
  induction insertions with
  | nil => cases h
  | cons first insertions ih =>
    rw [insertLines_cons, SourceText.insert]
    rcases List.mem_cons.mp h with rfl | h
    · have hle := hindex.trans (length_insertLines_ge source insertions)
      exact (List.mem_insertIdx hle).mpr (Or.inl rfl)
    · exact List.subset_insertIdx _ _ _ (ih h)

end Inserted

section Wired

variable {path : Path} {lines : List Line} {property statement text : Line}
  {insertions : List Insertion}

/-- A text that is missing is inserted behind an indentation. -/
theorem exists_insertion_of_missing
    (h : wiringInsertions path lines property statement = .ok insertions)
    (htext : text = property ∨ text = statement) (hmissing : isPresent text lines = false) :
    ∃ i ∈ insertions, i.index < lines.length ∧
      ∃ indent, (∀ c ∈ indent, isSpaceOrTab c = true) ∧ i.line = indent ++ text := by
  obtain ⟨D, A, hdeclare, hassign⟩ := exists_places_of_wiringInsertions h
  obtain ⟨hD, hA, -⟩ := places_ne hdeclare hassign
  rw [wiringInsertions_eq path hdeclare hassign] at h
  obtain rfl := Except.ok.inj h
  have hmem : ∀ indent, indent ++ text ∈ (missing text lines).map (indent ++ ·) := fun indent => by
    simp [missing, hmissing]
  rcases htext with rfl | rfl
  · have hdeclaration := List.mem_map_of_mem (f := Insertion.mk D)
      (hmem (indentation (lines[D]?.getD [])))
    refine ⟨⟨D, indentation (lines[D]?.getD []) ++ text⟩, ?_, hD, _,
      fun _ => isSpaceOrTab_of_mem_indentation, rfl⟩
    dsimp only
    split_ifs
    · exact List.mem_append_right _ hdeclaration
    · exact List.mem_append_left _ hdeclaration
  · have hassignment := List.mem_map_of_mem (f := Insertion.mk A) (hmem (bodyIndentation lines A))
    refine ⟨⟨A, bodyIndentation lines A ++ text⟩, ?_, hA, _,
      fun _ => isSpaceOrTab_of_mem_bodyIndentation, rfl⟩
    dsimp only
    split_ifs
    · exact List.mem_append_left _ hassignment
    · exact List.mem_append_right _ hassignment

end Wired

/-- What is wired is read in the text that the wiring leaves, if it stands on one line. -/
theorem isPresent_of_plan {path : Path} {text property statement wired : String}
    {outcome : PatchOutcome}
    (hplan : plan path text (.wireClass property statement) = .ok outcome)
    (hwired : wired = property ∨ wired = statement) (htrimmed : Trimmed wired.toList)
    (hnewline : '\n' ∉ wired.toList) :
    isPresent wired.toList (SourceText.parse outcome.content).lines = true := by
  obtain ⟨insertions, hinsertions, rfl⟩ := plan_wireClass_eq_ok.mp hplan
  obtain ⟨line, hline, hnone, htrim⟩ :
      ∃ line ∈ (insertLines (SourceText.parse text) insertions).lines,
        '\n' ∉ line ∧ trim line = wired.toList := by
    by_cases hpresent : isPresent wired.toList (SourceText.parse text).lines = true
    · obtain ⟨line, hline, htrim⟩ := isPresent_iff.mp hpresent
      exact ⟨line, mem_insertLines_of_mem hline, SourceText.newline_notMem_of_mem_lines hline,
        htrim⟩
    · obtain ⟨i, hi, hindex, indent, hindent, hi'⟩ := exists_insertion_of_missing hinsertions
        (hwired.imp (congrArg String.toList) (congrArg String.toList))
        (Bool.eq_false_iff.mpr hpresent)
      refine ⟨i.line, mem_insertLines hi hindex.le, ?_, hi' ▸ htrimmed.trim_indented hindent⟩
      rw [hi', List.mem_append, not_or]
      exact ⟨fun hmem => absurd (hindent _ hmem) (by decide), hnewline⟩
  rw [← htrim]
  exact SourceText.isPresent_parse_render hline hnone (htrim ▸ htrimmed.ne_nil)

end Php

/-! ## Line feeds in a statement -/

theorem Php.newline_mem_encode {s : List Char} : '\n' ∈ Quoted.encode s ↔ '\n' ∈ s := by
  induction s with
  | nil => rfl
  | cons c rest ih =>
    rw [Quoted.encode]
    split_ifs <;> simp [ih]

theorem Php.newline_mem_quote {text : String} :
    '\n' ∈ (Quoted.quote text).toList ↔ '\n' ∈ text.toList := by
  simp [Quoted.quote, newline_mem_encode]

/-- The texts that stand in the statement of a class as they are given. -/
def ClassSpec.freeTexts (spec : ClassSpec) (rootNamespace textDomain : String) : List String :=
  rootNamespace ::
    if spec.kind.isRegistrable then
      [spec.slug.getD "", spec.singularName.getD "", textDomain]
    else []

namespace PlacedClass

open Php

variable {request : ClassRequest} {spec : ClassSpec} {mapping : NamespaceMapping}
  {textDomain statement : String}

theorem newline_mem_qualifiedName (hspec : ClassSpec.ofRequest request = .ok spec) :
    '\n' ∈ (spec.place mapping).qualifiedName.toList ↔ '\n' ∈ mapping.rootNamespace.toList := by
  have hsegment : ∀ segment ∈ spec.segments, '\n' ∉ segment.toList := fun segment hmem =>
    notMem_of_isIdentifier (by decide) ((ClassSpec.isIdentifier_of_ofRequest hspec).2 segment hmem)
  have hname : '\n' ∉ spec.className.toList := hsegment _ (by simp [ClassSpec.segments])
  have hfolders : ¬ ∃ folder ∈ spec.folders, '\n' ∈ folder.toList := by
    rintro ⟨folder, hfolder, hmem⟩
    exact hsegment folder (List.mem_append_left _ hfolder) hmem
  change '\n' ∈ ("\\".intercalate (mapping.rootNamespace :: spec.folders) ++ "\\" ++
    spec.className).toList ↔ _
  rw [String.toList_append, String.toList_append, List.mem_append, List.mem_append,
    mem_intercalate (by decide), List.exists_mem_cons_iff]
  simp [hname, hfolders]

theorem newline_mem_instantiation (hspec : ClassSpec.ofRequest request = .ok spec)
    (hstatement : (spec.place mapping).instantiation textDomain = some statement) :
    '\n' ∈ statement.toList ↔
      ∃ text ∈ spec.freeTexts mapping.rootNamespace textDomain, '\n' ∈ text.toList := by
  have hproperty : '\n' ∉ spec.property.toList :=
    notMem_of_isIdentifier (by decide) (ClassSpec.isIdentifier_of_ofRequest hspec).1
  have htarget : '\n' ∈ ("$this->" ++ spec.property ++ " = new \\" ++
      (spec.place mapping).qualifiedName).toList ↔ '\n' ∈ mapping.rootNamespace.toList := by
    simp [hproperty, newline_mem_qualifiedName hspec]
  have hregistration : '\n' ∈ ((spec.place mapping).registration textDomain).toList ↔
      '\n' ∈ (spec.slug.getD "").toList ∨ '\n' ∈ (spec.singularName.getD "").toList ∨
        '\n' ∈ textDomain.toList := by
    change '\n' ∈ (Quoted.quote (spec.slug.getD "") ++ ", __(" ++
      Quoted.quote (spec.singularName.getD "") ++ ", " ++ Quoted.quote textDomain ++ ")").toList ↔ _
    simp [newline_mem_quote]
  have hplaced : (spec.place mapping).spec = spec := rfl
  rw [ClassSpec.freeTexts]
  cases hkind : spec.kind with
  | model =>
    simp only [instantiation, hplaced, hkind, Option.some.injEq] at hstatement
    rw [← hstatement, String.toList_append, List.mem_append, htarget]
    simp [ClassKind.isRegistrable]
  | postType =>
    simp only [instantiation, hplaced, hkind, Option.some.injEq] at hstatement
    rw [← hstatement, String.toList_append, String.toList_append, String.toList_append,
      List.mem_append, List.mem_append, List.mem_append, htarget, hregistration]
    simp [ClassKind.isRegistrable]
  | taxonomy =>
    simp only [instantiation, hplaced, hkind, Option.some.injEq] at hstatement
    rw [← hstatement, String.toList_append, String.toList_append, String.toList_append,
      List.mem_append, List.mem_append, List.mem_append, htarget, hregistration]
    simp [ClassKind.isRegistrable]
  | integrationStub => simp [instantiation, hplaced, hkind] at hstatement

/-- The declaration of the property starts and ends with code. -/
theorem trimmed_propertyDeclaration (placed : PlacedClass) :
    Trimmed placed.propertyDeclaration.toList := by
  rw [propertyDeclaration, String.toList_append, String.toList_append]
  exact ⟨⟨'p', by simp, by decide⟩, ';', Inert.getLast?_append _ rfl, by decide⟩

/-- So does the statement that fills it. -/
theorem trimmed_instantiation {placed : PlacedClass}
    (hstatement : placed.instantiation textDomain = some statement) :
    Trimmed statement.toList := by
  obtain ⟨rest, hrest⟩ := exists_append_of_instantiation hstatement
  refine ⟨⟨'$', by simp [hrest], by decide⟩, ';', ?_, by decide⟩
  rw [instantiation] at hstatement
  split at hstatement <;> simp only [Option.some.injEq, reduceCtorEq] at hstatement
  all_goals
    rw [← hstatement, String.toList_append]
    exact Inert.getLast?_append _ (by decide)

end PlacedClass

namespace Php

/-! ## Wiring twice -/

/-- A class that is wired a second time changes nothing exactly if none of the texts that its
statement takes over has a line feed. If one has, the statement alone is inserted again. -/
theorem isUnchanged_iff_of_plan_twice {path : Path} {text textDomain statement : String}
    {request : ClassRequest} {spec : ClassSpec} {mapping : NamespaceMapping}
    {first second : PatchOutcome} (hspec : ClassSpec.ofRequest request = .ok spec)
    (hstatement : (spec.place mapping).instantiation textDomain = some statement)
    (hfirst : plan path text
      (.wireClass (spec.place mapping).propertyDeclaration statement) = .ok first)
    (hsecond : plan path first.content
      (.wireClass (spec.place mapping).propertyDeclaration statement) = .ok second) :
    (second.isUnchanged = true ↔
      ∀ given ∈ spec.freeTexts mapping.rootNamespace textDomain, '\n' ∉ given.toList) ∧
    second.changes.length ≤ 1 ∧ ∀ change ∈ second.changes, change.Inserts statement.toList := by
  have hproperty : '\n' ∉ (spec.place mapping).propertyDeclaration.toList := by
    have hname : '\n' ∉ spec.property.toList :=
      notMem_of_isIdentifier (by decide) (ClassSpec.isIdentifier_of_ofRequest hspec).1
    change '\n' ∉ ("public $" ++ spec.property ++ ";").toList
    simp [hname]
  have hdeclared := isPresent_of_plan hfirst (Or.inl rfl)
    (PlacedClass.trimmed_propertyDeclaration _) hproperty
  -- The statement is there if it is on one line, and on no line otherwise.
  have hassigned : isPresent statement.toList (SourceText.parse first.content).lines = true ↔
      '\n' ∉ statement.toList := by
    refine ⟨fun hpresent hmem => ?_, isPresent_of_plan hfirst (Or.inr rfl)
      (PlacedClass.trimmed_instantiation hstatement)⟩
    rw [SourceText.isPresent_eq_false_of_newline hmem] at hpresent
    cases hpresent
  obtain ⟨insertions, hinsertions, rfl⟩ := plan_wireClass_eq_ok.mp hsecond
  obtain ⟨declaration, assignment, hperm, hdeclaration, hassignment, -, hinserts⟩ :=
    exists_changes_of_wiringInsertions hinsertions
  obtain rfl := hdeclaration.mpr hdeclared
  rw [Option.toList_none, List.nil_append, ← insertionChanges_eq] at hperm
  refine ⟨?_, ?_, fun change hchange => hinserts change ?_⟩
  · have hunchanged : insertionChanges insertions = [] ↔ assignment = none := by
      rw [← List.length_eq_zero_iff, hperm.length_eq, List.length_eq_zero_iff]
      cases assignment <;> simp
    have hfree := (PlacedClass.newline_mem_instantiation hspec hstatement).not
    rw [PatchOutcome.isUnchanged, List.isEmpty_iff, hunchanged, hassignment, hassigned, hfree]
    push Not
    rfl
  · rw [hperm.length_eq]
    cases assignment <;> simp
  · simpa using hperm.mem_iff.mp hchange

/-- A post type whose name has a line feed. -/
def twoLineRequest : ClassRequest := ⟨.postType, "Book", none, none, some "Books\nand more"⟩

def twoLineSpec : ClassSpec := ⟨.postType, [], "Book", "Book", some "book", some "Books\nand more"⟩

def twoLineMapping : NamespaceMapping := ⟨"P\\", "P", "/p/src"⟩

/-- The two lines of the statement. -/
def upperHalf : String := "$this->Book = new \\P\\Book('book', __('Books"

def lowerHalf : String := "and more', 'p'), array(), $this->plugin);"

def twoLineStatement : String := upperHalf ++ "\n" ++ lowerHalf

theorem toList_twoLineStatement :
    twoLineStatement.toList = upperHalf.toList ++ '\n' :: lowerHalf.toList := by
  rw [twoLineStatement, String.toList_append, String.toList_append, List.append_assoc]
  rfl

/-- The edit that wires it. -/
def twoLineEdit : BootstrapEdit :=
  .wireClass (twoLineSpec.place twoLineMapping).propertyDeclaration twoLineStatement

/-- A plugin without classes. -/
def bookless : List String :=
  ["<?php", "class P \x7b", "    function __construct() \x7b", "    \x7d",
    "    function instantiate() \x7b", "    \x7d", "\x7d"]

/-- The lines once the post type is wired into it. -/
def wiredLines : List String :=
  ["<?php", "class P \x7b", "    public $Book;", "    function __construct() \x7b", "    \x7d",
    "    function instantiate() \x7b", "        " ++ upperHalf, lowerHalf, "    \x7d", "\x7d"]

/-- The lines once it is wired once more. -/
def rewiredLines : List String :=
  ["<?php", "class P \x7b", "    public $Book;", "    function __construct() \x7b", "    \x7d",
    "    function instantiate() \x7b", "        " ++ upperHalf, lowerHalf, upperHalf, lowerHalf,
    "    \x7d", "\x7d"]

def wiredOnce : PatchOutcome where
  content := (plainSource wiredLines).render
  changes := [⟨3, .inserted, "    public $Book;"⟩, ⟨7, .inserted, "        " ++ twoLineStatement⟩]

def wiredTwice : PatchOutcome where
  content := (plainSource rewiredLines).render
  changes := [⟨9, .inserted, twoLineStatement⟩]

theorem ofRequest_twoLineRequest : ClassSpec.ofRequest twoLineRequest = .ok twoLineSpec := by
  decide

theorem instantiation_twoLineSpec :
    (twoLineSpec.place twoLineMapping).instantiation "p" = some twoLineStatement := by
  decide

theorem plan_bookless :
    plan "p.php" (plainSource bookless).render twoLineEdit = .ok wiredOnce := by
  have hparse : SourceText.parse (plainSource bookless).render = plainSource bookless :=
    parse_plainSource (by decide) (by decide)
  have hcontent : (insertLines (plainSource bookless) [⟨2, "    public $Book;".toList⟩,
      ⟨5, "        ".toList ++ twoLineStatement.toList⟩]).renderChars =
      (plainSource wiredLines).renderChars := by
    rw [toList_twoLineStatement]
    simp only [insertLines, List.foldr, SourceText.insert, plainSource, bookless, wiredLines,
      List.map, List.insertIdx, List.modifyTailIdx, List.modifyTailIdx.go, SourceText.renderChars,
      join, LineEnding.chars, String.toList_append, List.append_assoc, List.cons_append,
      List.nil_append]
  refine plan_wireClass_eq_ok.mpr ⟨[⟨2, "    public $Book;".toList⟩,
    ⟨5, "        ".toList ++ twoLineStatement.toList⟩], ?_, ?_⟩
  · rw [hparse]
    decide +kernel
  · rw [hparse, SourceText.render, hcontent]
    simp [insertionChanges, wiredOnce, SourceText.render, -String.reduceToList]

theorem plan_wiredOnce : plan "p.php" wiredOnce.content twoLineEdit = .ok wiredTwice := by
  have hparse : SourceText.parse wiredOnce.content = plainSource wiredLines :=
    parse_plainSource (by decide) (by decide)
  have hcontent : (insertLines (plainSource wiredLines)
      [⟨8, twoLineStatement.toList⟩]).renderChars = (plainSource rewiredLines).renderChars := by
    rw [toList_twoLineStatement]
    simp only [insertLines, List.foldr, SourceText.insert, plainSource, wiredLines, rewiredLines,
      List.map, List.insertIdx, List.modifyTailIdx, List.modifyTailIdx.go, SourceText.renderChars,
      join, LineEnding.chars, List.append_assoc, List.cons_append, List.nil_append]
  refine plan_wireClass_eq_ok.mpr ⟨[⟨8, twoLineStatement.toList⟩], ?_, ?_⟩
  · rw [hparse]
    decide +kernel
  · rw [hparse, SourceText.render, hcontent]
    simp [insertionChanges, wiredTwice, SourceText.render, -String.reduceToList]

/-- The statement is inserted again, and the declaration is not. -/
theorem isUnchanged_iff_of_plan_twice_twoLines :
    ClassSpec.ofRequest twoLineRequest = .ok twoLineSpec ∧
    (twoLineSpec.place twoLineMapping).instantiation "p" = some twoLineStatement ∧
    plan "p.php" (plainSource bookless).render twoLineEdit = .ok wiredOnce ∧
    plan "p.php" wiredOnce.content twoLineEdit = .ok wiredTwice ∧
    (wiredTwice.isUnchanged = true ↔
      ∀ given ∈ twoLineSpec.freeTexts twoLineMapping.rootNamespace "p", '\n' ∉ given.toList) ∧
    wiredTwice.changes.length ≤ 1 ∧
    ∀ change ∈ wiredTwice.changes, change.Inserts twoLineStatement.toList :=
  ⟨ofRequest_twoLineRequest, instantiation_twoLineSpec, plan_bookless, plan_wiredOnce,
    isUnchanged_iff_of_plan_twice ofRequest_twoLineRequest instantiation_twoLineSpec plan_bookless
      plan_wiredOnce⟩

/-- A class that is accepted may be wired a second time. -/
theorem not_isUnchanged_of_plan_twice : ¬ ∀ (path : Path) (text textDomain statement : String)
    (request : ClassRequest) (spec : ClassSpec) (mapping : NamespaceMapping)
    (first second : PatchOutcome), ClassSpec.ofRequest request = .ok spec →
      (spec.place mapping).instantiation textDomain = some statement →
      plan path text
        (.wireClass (spec.place mapping).propertyDeclaration statement) = .ok first →
      plan path first.content
        (.wireClass (spec.place mapping).propertyDeclaration statement) = .ok second →
      second.isUnchanged = true := by
  intro h
  have hunchanged := h "p.php" _ "p" twoLineStatement twoLineRequest twoLineSpec
    twoLineMapping wiredOnce wiredTwice ofRequest_twoLineRequest instantiation_twoLineSpec
    plan_bookless plan_wiredOnce
  exact absurd hunchanged (by decide)

end Php

end PluginWorkshop
