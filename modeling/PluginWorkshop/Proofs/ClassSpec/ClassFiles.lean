import PluginWorkshop.Proofs.ClassSpec.Placing
import PluginWorkshop.Proofs.Php.CreatedClasses

/-!
# What a class file declares

The names that a PHP text declares are read off its code, at the start of a statement
(`Php.declared`). A class file consists of the lines up to the opening brace of the class, which hold
the namespace and the class name, and of lines that declare nothing
(`PlacedClass.exists_content_eq`). So it declares its namespace and its class and nothing else
(`declared_classFile`). The statement for the bootstrap file creates an object of the class under its
qualified name (`PlacedClass.exists_instantiation`, `PlacedClass.assignedClass?_eq`).
-/

namespace PluginWorkshop

open Text Php

/-! ## Declared names -/

namespace Php

/-- A statement or a block starts or ends here. -/
def endsStatement (c : Char) : Bool := c == ';' || c == '\x7b' || c == '\x7d'

/-- A character of a word of code: no blank, quote or bracket, and nothing that starts a comment or
ends a statement. -/
def isWordChar (c : Char) : Bool := isPlain c && !isBlank c && !(endsStatement c || c == '(')

/-- A text that is one word of code, as every namespace is. -/
def isWord (text : String) : Bool := !text.toList.isEmpty && text.toList.all isWordChar

/-- The name that code declares with a keyword at its start. -/
def declaredName? (keyword : String) (code : List Char) : Option (List Char) :=
  match afterPrefix? keyword.toList (dropBlanks code) with
  | some (c :: rest) =>
    if isBlank c then some ((dropBlanks rest).takeWhile isWordChar) else none
  | _ => none

/-- The names that lines of code declare with a keyword. -/
def declaredNames (keyword : String) (code : List Line) : List (List Char) :=
  code.flatMap fun line => (splitWhere endsStatement line).filterMap (declaredName? keyword)

/-- The names that a text declares with a keyword, wherever it stands for itself: not in a comment
and not in a string. -/
def declared (keyword : String) (text : String) : List (List Char) :=
  declaredNames keyword (mask (SourceText.parse text).lines)

variable {name rest : List Char} {c : Char}

theorem isPlain_of_isWordChar (h : isWordChar c = true) : isPlain c = true := by
  simp only [isWordChar, Bool.and_eq_true] at h
  exact h.1.1

theorem isBlank_of_isWordChar (h : isWordChar c = true) : isBlank c = false := by
  simp only [isWordChar, Bool.and_eq_true, Bool.not_eq_true'] at h
  exact h.1.2

theorem endsStatement_of_isWordChar (h : isWordChar c = true) : endsStatement c = false := by
  simp only [isWordChar, Bool.and_eq_true, Bool.not_eq_true', Bool.or_eq_false_iff] at h
  exact h.2.1

theorem isWordChar_of_isNameChar (h : isNameChar c = true) : isWordChar c = true := by
  have hblank : isBlank c = false := by
    rcases Bool.or_eq_true_iff.mp h with hpart | hseparator
    · exact isBlank_of_isIdentifierPart hpart
    · rw [beq_iff_eq.mp hseparator]
      decide
  have hends : (endsStatement c || c == '(') = false := by
    rw [Bool.eq_false_iff]
    intro hends
    simp only [endsStatement, Bool.or_eq_true, beq_iff_eq] at hends
    rcases hends with ((rfl | rfl) | rfl) | rfl <;> exact absurd h (by decide)
  rw [isWordChar, isPlain_of_isNameChar h, hblank, hends]
  rfl

theorem isWordChar_of_isWord {text : String} (h : isWord text = true) :
    ∀ c ∈ text.toList, isWordChar c = true :=
  List.all_eq_true.mp (Bool.and_eq_true_iff.mp h).2

theorem ne_empty_of_isWord {text : String} (h : isWord text = true) : text ≠ "" := by
  rintro rfl
  exact absurd h (by decide)

theorem isWord_of_isIdentifier {text : String} (h : isIdentifier text.toList = true) :
    isWord text = true := by
  have hne : text.toList ≠ [] := by
    intro hempty
    rw [hempty] at h
    exact absurd h (by decide)
  rw [isWord, List.isEmpty_eq_false_iff.mpr hne, List.all_eq_true.mpr fun c hc =>
    isWordChar_of_isNameChar (isNameChar_of_isIdentifier h c hc)]
  rfl

theorem declaredNames_append (keyword : String) (a b : List Line) :
    declaredNames keyword (a ++ b) = declaredNames keyword a ++ declaredNames keyword b :=
  List.flatMap_append

theorem all_not_endsStatement (hname : ∀ c ∈ name, isWordChar c = true) :
    name.all (!endsStatement ·) = true :=
  List.all_eq_true.mpr fun c hc => by simp [endsStatement_of_isWordChar (hname c hc)]

theorem splitWhere_endsStatement {code : List Char} (h : code.all (!endsStatement ·) = true) :
    splitWhere endsStatement code = [code] :=
  splitWhere_of_forall fun c hc => by simpa using List.all_eq_true.mp h c hc

theorem dropBlanks_cons (h : isBlank c = false) (s : List Char) : dropBlanks (c :: s) = c :: s :=
  List.dropWhile_cons_of_neg (by simp [h])

theorem dropBlanks_word_append {text : String} (h : isWord text = true) :
    dropBlanks (text.toList ++ rest) = text.toList ++ rest := by
  obtain ⟨c, tail, hchars⟩ := List.exists_cons_of_ne_nil
    (mt String.toList_eq_nil_iff.mp (ne_empty_of_isWord h))
  have hblank := isBlank_of_isWordChar (isWordChar_of_isWord h c (by simp [hchars]))
  rw [hchars, List.cons_append, dropBlanks_cons hblank]

theorem takeWhile_word_append (rest : List Char) (hname : ∀ c ∈ name, isWordChar c = true)
    (hrest : ∀ c ∈ rest.head?, isWordChar c = false) :
    (name ++ rest).takeWhile isWordChar = name := by
  rw [List.takeWhile_append_of_pos hname]
  cases rest with
  | nil => simp
  | cons c rest => simp [hrest c rfl]

/-- The name behind a keyword reaches up to a character that is in no word. -/
theorem declaredName?_eq {keyword name : String} (rest : List Char)
    (hkeyword : isWord keyword = true) (hname : isWord name = true)
    (hrest : ∀ c ∈ rest.head?, isWordChar c = false) :
    declaredName? keyword (keyword.toList ++ ' ' :: (name.toList ++ rest)) = some name.toList := by
  rw [declaredName?, dropBlanks_word_append hkeyword, afterPrefix?_eq_some.mpr rfl]
  dsimp only
  rw [if_pos (by decide), dropBlanks_word_append hname,
    takeWhile_word_append rest (isWordChar_of_isWord hname) hrest]

/-- Lines of plain code are their own masked copies, and leave what comes behind them to be read as
code. -/
theorem mask_append {lines body : List Line}
    (h : ∀ line ∈ lines, maskLine .code line = (line, .code)) :
    mask (lines ++ body) = lines ++ mask body := by
  induction lines with
  | nil => rfl
  | cons line lines ih =>
    rw [mask, List.cons_append, maskFrom, h line List.mem_cons_self]
    exact congrArg (line :: ·) (ih fun l hl => h l (List.mem_cons_of_mem _ hl))

theorem maskLine_of_isPlain {line : Line} (h : ∀ c ∈ line, isPlain c = true) :
    maskLine .code line = (line, .code) := by
  have hlexes : Lexes (line ++ []) (line ++ []) := Lexes.nil.plain_append h
  rw [List.append_nil] at hlexes
  exact hlexes.maskLine_eq

end Php

/-! ## Rendered lines -/

namespace Template

/-- A template of lines is rendered line by line. -/
theorem render_ofLines {lines : List (List Piece)} (hne : lines ≠ []) (vars : TemplateVars) :
    (ofLines lines).render vars =
      (plainSource (lines.map fun line => String.join (line.map (renderPiece vars)))).render := by
  rw [← String.toList_inj, toList_render, toList_render_plainSource (by simpa using hne), ofLines]
  simp [List.flatMap_assoc, List.flatMap_map, String.toList_join, renderPiece]

end Template

/-! ## The lines of a class file -/

/-- The lines up to the opening brace of the class. -/
def classHeadLines (nameSpace className : String) : List String :=
  ["<?php", "", "namespace " ++ nameSpace ++ ";", "", "use WPTrait\\Model;", "",
    "class " ++ className ++ " extends Model", "\x7b"]

/-- Lines that declare nothing. -/
structure ClassBody (body : List Line) : Prop where
  plain : ∀ line ∈ body, '\n' ∉ line ∧ '\r' ∉ line
  nameSpaces : declaredNames "namespace" (mask body) = []
  classes : declaredNames "class" (mask body) = []

/-- Lines that are written out are spelled one by one; `rfl` gives the characters of each. -/
theorem map_toList_cons {line : String} {s : Line} {lines : List String} {rest : List Line}
    (hline : line = String.ofList s) (hrest : lines.map String.toList = rest) :
    (line :: lines).map String.toList = s :: rest := by
  rw [List.map_cons, hline, hrest, String.toList_ofList]

theorem map_toList_cons_append {a b : String} {s t : Line} {lines : List String} {rest : List Line}
    (ha : a = String.ofList s) (hb : b = String.ofList t) (hrest : lines.map String.toList = rest) :
    ((a ++ b) :: lines).map String.toList = (s ++ t) :: rest := by
  rw [List.map_cons, ha, hb, hrest, String.toList_append, String.toList_ofList, String.toList_ofList]

/-- The template of a kind that is made has the lines of a class file, with lines behind them that
are the same for all classes. -/
theorem ClassKind.exists_template {kind : ClassKind} (hkind : kind ≠ .integrationStub) :
    ∃ body : List String, ClassBody (body.map String.toList) ∧
      kind.template.template = .ofLines (Template.classHead ++ body.map fun line => [.text line]) := by
  have hspelled : ∀ {body : List String} {lines : List Line}, body.map String.toList = lines →
      ClassBody lines → ClassBody (body.map String.toList) := fun h hlines => h ▸ hlines
  cases kind with
  | model =>
    refine ⟨_, ?_, rfl⟩
    apply hspelled
    · repeat' first | exact List.map_nil | apply map_toList_cons rfl
    · constructor <;> decide
  | postType =>
    refine ⟨_, ?_, rfl⟩
    apply hspelled
    · repeat' first | exact List.map_nil | apply map_toList_cons rfl
    · constructor <;> decide
  | taxonomy =>
    refine ⟨_, ?_, rfl⟩
    apply hspelled
    · -- The head of the constructor is written in two parts.
      iterate 5 apply map_toList_cons rfl
      apply map_toList_cons_append rfl rfl
      repeat' first | exact List.map_nil | apply map_toList_cons rfl
    · constructor <;> decide
  | integrationStub => exact absurd rfl hkind

namespace PlacedClass

variable {placed : PlacedClass}

theorem map_classHead (placed : PlacedClass) :
    (Template.classHead.map fun line =>
      String.join (line.map (Template.renderPiece placed.templateVars))) =
      classHeadLines placed.nameSpace placed.spec.className := by
  have hnameSpace : placed.templateVars.get? "namespace" = some placed.nameSpace := rfl
  have hclass : placed.templateVars.get? "class" = some placed.spec.className := rfl
  have htext : ∀ text, Template.renderPiece placed.templateVars (.text text) = text := fun _ => rfl
  simp [Template.classHead, classHeadLines, Template.renderPiece_slot, hnameSpace, hclass, htext,
    String.append_assoc]

theorem exists_content_eq (placed : PlacedClass) (hkind : placed.spec.kind ≠ .integrationStub) :
    ∃ body, ClassBody (body.map String.toList) ∧ placed.content =
      (plainSource (classHeadLines placed.nameSpace placed.spec.className ++ body)).render := by
  obtain ⟨body, hbody, htemplate⟩ := ClassKind.exists_template hkind
  refine ⟨body, hbody, ?_⟩
  have hlines : (body.map fun line => [Piece.text line]).map (fun line =>
      String.join (line.map (Template.renderPiece placed.templateVars))) = body := by
    simp [Template.renderPiece, Function.comp_def]
  rw [content, TemplateName.render, htemplate, Template.render_ofLines (by simp [Template.classHead]),
    List.map_append, map_classHead, hlines]

end PlacedClass

section

variable {nameSpace className : String} {body : List String}

/-- The lines up to the opening brace declare the namespace and the class. -/
theorem declaredNames_classHeadLines (hnameSpace : isWord nameSpace = true)
    (hclass : isWord className = true) :
    declaredNames "namespace" ((classHeadLines nameSpace className).map String.toList) =
        [nameSpace.toList] ∧
      declaredNames "class" ((classHeadLines nameSpace className).map String.toList) =
        [className.toList] := by
  have hnameSpaceLine : splitWhere endsStatement ("namespace " ++ nameSpace ++ ";").toList =
      ["namespace".toList ++ ' ' :: (nameSpace.toList ++ []), []] := by
    have hline : ("namespace " ++ nameSpace ++ ";").toList =
        ("namespace".toList ++ ' ' :: nameSpace.toList) ++ ';' :: [] := by simp
    have hnone : ("namespace".toList ++ ' ' :: nameSpace.toList).all (!endsStatement ·) = true := by
      rw [List.all_append, List.all_cons, all_not_endsStatement (isWordChar_of_isWord hnameSpace)]
      decide
    rw [hline, splitWhere_append_cons (by decide), splitWhere_endsStatement hnone, List.append_nil]
    rfl
  have hclassLine : splitWhere endsStatement ("class " ++ className ++ " extends Model").toList =
      ["class".toList ++ ' ' :: (className.toList ++ " extends Model".toList)] := by
    have hline : ("class " ++ className ++ " extends Model").toList =
        "class ".toList ++ (className.toList ++ " extends Model".toList) := by simp
    rw [hline, splitWhere_endsStatement]
    · rfl
    · rw [List.all_append, List.all_append, all_not_endsStatement (isWordChar_of_isWord hclass)]
      decide
  have hnameSpaceName := declaredName?_eq [] (show isWord "namespace" = true by decide) hnameSpace
    (by simp)
  have hclassName := declaredName?_eq " extends Model".toList (show isWord "class" = true by decide)
    hclass (by rintro c ⟨⟩; decide)
  have hother : ∀ rest, declaredName? "class" ("namespace".toList ++ rest) = none := fun _ => rfl
  have hother' : ∀ rest, declaredName? "namespace" ("class".toList ++ rest) = none := fun _ => rfl
  simp only [declaredNames, classHeadLines, List.map_cons, List.map_nil, List.flatMap_cons,
    List.flatMap_nil, hnameSpaceLine, hclassLine, List.filterMap_cons, List.filterMap_nil,
    hnameSpaceName, hclassName, hother, hother']
  exact ⟨rfl, rfl⟩

/-- A character of a line of plain code. -/
def isLineChar (c : Char) : Bool := isPlain c && c != '\r'

theorem all_isLineChar {text : String} (h : isWord text = true) :
    text.toList.all isLineChar = true := by
  refine List.all_eq_true.mpr fun c hc => ?_
  have hchar := isWordChar_of_isWord h c hc
  have hreturn : c ≠ '\r' := by
    rintro rfl
    exact absurd hchar (by decide)
  simp [isLineChar, isPlain_of_isWordChar hchar, hreturn]

/-- Up to the brace of the class all is plain code. -/
theorem of_mem_classHeadLines (hnameSpace : isWord nameSpace = true)
    (hclass : isWord className = true) {line : String}
    (h : line ∈ classHeadLines nameSpace className) :
    line.toList.all isLineChar = true ∨ line = "\x7b" := by
  simp only [classHeadLines, List.mem_cons, List.not_mem_nil, or_false] at h
  rcases h with rfl | rfl | rfl | rfl | rfl | rfl | rfl | rfl
  · exact Or.inl (by decide)
  · exact Or.inl rfl
  · left
    rw [String.toList_append, String.toList_append, List.all_append, List.all_append,
      all_isLineChar hnameSpace]
    decide
  · exact Or.inl rfl
  · exact Or.inl (by decide)
  · exact Or.inl rfl
  · left
    rw [String.toList_append, String.toList_append, List.all_append, List.all_append,
      all_isLineChar hclass]
    decide
  · exact Or.inr rfl

/-- A class file declares one namespace and one class. -/
theorem declared_classFile (hnameSpace : isWord nameSpace = true)
    (hclass : isWord className = true) (hbody : ClassBody (body.map String.toList)) :
    declared "namespace" (plainSource (classHeadLines nameSpace className ++ body)).render =
        [nameSpace.toList] ∧
      declared "class" (plainSource (classHeadLines nameSpace className ++ body)).render =
        [className.toList] := by
  have hplain : ∀ line ∈ classHeadLines nameSpace className ++ body,
      '\n' ∉ line.toList ∧ '\r' ∉ line.toList := by
    intro line hline
    rcases List.mem_append.mp hline with hline | hline
    · rcases of_mem_classHeadLines hnameSpace hclass hline with hall | rfl
      · have hchar := List.all_eq_true.mp hall
        exact ⟨fun hmem => absurd (hchar _ hmem) (by decide),
          fun hmem => absurd (hchar _ hmem) (by decide)⟩
      · decide
    · exact hbody.plain _ (List.mem_map_of_mem hline)
  have hmask : ∀ line ∈ (classHeadLines nameSpace className).map String.toList,
      maskLine .code line = (line, .code) := by
    intro line hline
    obtain ⟨text, htext, rfl⟩ := List.mem_map.mp hline
    rcases of_mem_classHeadLines hnameSpace hclass htext with hall | rfl
    · exact maskLine_of_isPlain fun c hc =>
        (Bool.and_eq_true_iff.mp (List.all_eq_true.mp hall c hc)).1
    · decide
  have hlines : (plainSource (classHeadLines nameSpace className ++ body)).lines =
      (classHeadLines nameSpace className).map String.toList ++ body.map String.toList :=
    List.map_append
  have hdeclared (keyword : String) :
      declared keyword (plainSource (classHeadLines nameSpace className ++ body)).render =
        declaredNames keyword ((classHeadLines nameSpace className).map String.toList) ++
          declaredNames keyword (mask (body.map String.toList)) := by
    rw [declared, parse_plainSource (by simp [classHeadLines]) hplain, hlines, mask_append hmask,
      declaredNames_append]
  obtain ⟨hfirst, hsecond⟩ := declaredNames_classHeadLines hnameSpace hclass
  rw [hdeclared, hdeclared, hfirst, hsecond, hbody.nameSpaces, hbody.classes]
  exact ⟨rfl, rfl⟩

end

/-! ## The statement for the bootstrap file -/

/-- The class of the new object that a statement assigns: the word behind `new`. -/
def assignedClass? (statement : Line) : Option (List Char) :=
  ((assigned? (statement.dropWhile (· != '='))).bind operandOfNew?).map (·.takeWhile isWordChar)

namespace PlacedClass

variable {placed : PlacedClass}

/-- The statement for a kind that is made creates an object of the class. -/
theorem exists_instantiation (placed : PlacedClass) (hkind : placed.spec.kind ≠ .integrationStub)
    (textDomain : String) :
    ∃ arguments, placed.instantiation textDomain = some ("$this->" ++ placed.spec.property ++
      " = new \\" ++ placed.qualifiedName ++ "(" ++ arguments ++ ");") := by
  cases hk : placed.spec.kind with
  | model =>
    refine ⟨"$this->plugin", ?_⟩
    simp only [instantiation, hk, Option.some.injEq, String.append_assoc]
    rfl
  | postType =>
    refine ⟨placed.registration textDomain ++ ", array(), $this->plugin", ?_⟩
    simp only [instantiation, hk, Option.some.injEq, String.append_assoc]
    rfl
  | taxonomy =>
    refine ⟨placed.registration textDomain ++ ", array('post'), array(), $this->plugin", ?_⟩
    simp only [instantiation, hk, Option.some.injEq, String.append_assoc]
    rfl
  | integrationStub => exact absurd hk hkind

theorem assignedClass?_eq (hproperty : '=' ∉ placed.spec.property.toList)
    (hname : ∀ c ∈ placed.qualifiedName.toList, isWordChar c = true) (arguments : String) :
    assignedClass? ("$this->" ++ placed.spec.property ++ " = new \\" ++ placed.qualifiedName ++
      "(" ++ arguments ++ ");").toList = some ('\\' :: placed.qualifiedName.toList) := by
  have hstatement : ("$this->" ++ placed.spec.property ++ " = new \\" ++ placed.qualifiedName ++
      "(" ++ arguments ++ ");").toList = ("$this->".toList ++ (placed.spec.property.toList ++ [' '])) ++
        '=' :: ' ' :: ("new".toList ++ ' ' :: (('\\' :: placed.qualifiedName.toList) ++
          '(' :: (arguments.toList ++ ");".toList))) := by
    simp
  have hfront : ∀ d ∈ "$this->".toList ++ (placed.spec.property.toList ++ [' ']),
      (d != '=') = true := by
    refine List.all_eq_true.mp ?_
    have hall : placed.spec.property.toList.all (· != '=') = true :=
      List.all_eq_true.mpr fun d hd => bne_iff_ne.mpr fun heq => hproperty (heq ▸ hd)
    rw [List.all_append, List.all_append, hall]
    decide
  have hword : (('\\' :: placed.qualifiedName.toList) ++
      '(' :: (arguments.toList ++ ");".toList)).takeWhile isWordChar =
        '\\' :: placed.qualifiedName.toList :=
    takeWhile_word_append _ (List.forall_mem_cons.mpr ⟨by decide, hname⟩) (by rintro d ⟨⟩; decide)
  rw [assignedClass?, hstatement, List.dropWhile_append_of_pos hfront]
  exact congrArg some hword

end PlacedClass

end PluginWorkshop
