import Mathlib.Data.List.DropRight
import PluginWorkshop.Proofs.Php.Bindings

/-!
# The class of the plugin object

The class of the plugin object is read from the first line outside all blocks that creates an
object, whether or not the object is assigned to a variable; the line on which it is assigned is the
first one that creates an object and does not assign it. The first of these lines is never below the
second (`exists_classLine`).

Both lines are found by their code, but the class is read from the line as it is written. On a line
that starts in code this makes no difference (`instantiatedClass?_maskLine`), since up to the end of
the class name such a line holds nothing that the lexer would blank.
-/

namespace PluginWorkshop.Php

open Text

variable {line s t operand name : Line} {c : Char}

/-! ## Code that starts with a character -/

/-- The code of a line that starts in code. -/
def codeOf (line : Line) : Line := (maskLine .code line).1

theorem codeOf_append (hs : ∀ c ∈ s, isInert c = true) (t : Line) :
    codeOf (s ++ t) = s ++ codeOf t := by
  rw [codeOf, maskLine_inert_append (Or.inl rfl) hs]
  rfl

theorem codeOf_cons (hc : isInert c = true) (s : Line) : codeOf (c :: s) = c :: codeOf s :=
  codeOf_append (s := [c]) (by simpa using hc) s

/-- Behind its blanks the text starts with an inert character. -/
def StartsInert (s : Line) : Prop := ∃ c ∈ (dropBlanks s).head?, isInert c = true

theorem startsInert_cons (hinert : isInert c = true) (hblank : isBlank c = false) (s : Line) :
    StartsInert (c :: s) := by
  refine ⟨c, ?_, hinert⟩
  rw [dropBlanks, List.dropWhile_cons_of_neg (by simp [hblank])]
  rfl

/-- Blanks in front of such a text may be dropped before the lexer reads it or afterwards. -/
theorem dropBlanks_codeOf (h : StartsInert s) : dropBlanks (codeOf s) = codeOf (dropBlanks s) := by
  obtain ⟨c, hc, hinert⟩ := h
  obtain ⟨rest, hrest⟩ := List.head?_eq_some_iff.mp hc
  have hblank : isBlank c = false := by
    have := List.head?_dropWhile_not isBlank s
    rw [← dropBlanks, hrest] at this
    simpa using this
  have hblanks : ∀ d ∈ s.takeWhile isBlank, isBlank d = true := fun d => List.mem_takeWhile_imp
  have hsplit : s = s.takeWhile isBlank ++ dropBlanks s := List.takeWhile_append_dropWhile.symm
  conv_lhs => rw [hsplit, codeOf_append fun d hd => isInert_of_isBlank (hblanks d hd),
    dropBlanks_append hblanks]
  rw [hrest, codeOf_cons hinert, dropBlanks, List.dropWhile_cons_of_neg (by simp [hblank])]

theorem startsInert_dropBlanks : StartsInert (dropBlanks s) ↔ StartsInert s := by
  rw [StartsInert, StartsInert, dropBlanks, dropBlanks, List.dropWhile_idempotent]

/-! ## Code in front of a word -/

section Words

variable {p : Char → Bool}

theorem exists_codeOf_cons (c : Char) (s : Line) :
    ∃ d rest, codeOf (c :: s) = d :: rest ∧ (d = c ∨ d = ' ') := by
  obtain ⟨d, rest, hmasks, -, hcode⟩ :=
    List.forall₂_cons_right_iff.mp (forall₂_maskLine .code (c :: s))
  exact ⟨d, rest, hcode, hmasks⟩

/-- A word of inert characters ends in the code where it ends on the line. -/
theorem takeWhile_codeOf (hinert : ∀ c, p c = true → isInert c = true) (hspace : p ' ' = false)
    (s : Line) : (codeOf s).takeWhile p = s.takeWhile p ∧
      (codeOf s).dropWhile p = codeOf (s.dropWhile p) := by
  induction s with
  | nil => exact ⟨rfl, rfl⟩
  | cons c s ih =>
    cases hc : p c with
    | true =>
      rw [codeOf_cons (hinert c hc), List.takeWhile_cons_of_pos hc, List.takeWhile_cons_of_pos hc,
        List.dropWhile_cons_of_pos hc, List.dropWhile_cons_of_pos hc]
      exact ⟨congrArg (c :: ·) ih.1, ih.2⟩
    | false =>
      obtain ⟨d, rest, hcode, hd⟩ := exists_codeOf_cons c s
      have hd : p d = false := by rcases hd with rfl | rfl <;> assumption
      rw [List.takeWhile_cons_of_neg (by simp [hc]), List.dropWhile_cons_of_neg (by simp [hc]), hcode,
        List.takeWhile_cons_of_neg (by simp [hd]), List.dropWhile_cons_of_neg (by simp [hd])]
      exact ⟨rfl, rfl⟩

end Words

/-! ## The class in the code -/

theorem isBlank_of_isIdentifierStart (h : isIdentifierStart c = true) : isBlank c = false :=
  isBlank_of_isIdentifierPart (isIdentifierPart_of_isIdentifierStart h)

theorem isInert_of_isIdentifierStart (h : isIdentifierStart c = true) : isInert c = true :=
  isInert_of_isIdentifierPart (isIdentifierPart_of_isIdentifierStart h)

theorem isInert_of_isNameChar (c : Char) (h : isNameChar c = true) : isInert c = true :=
  isInert_of_disjoint (by decide) h

/-- The class name behind what separates it from its namespace. -/
def classNameFrom? (separator s : Line) : Option Line :=
  match s with
  | c :: _ => if isIdentifierStart c then some (separator ++ s.takeWhile isNameChar) else none
  | [] => none

theorem className?_cons_separator (s : Line) :
    className? ('\\' :: s) = classNameFrom? ['\\'] s := by
  cases s <;> rfl

theorem className?_of_ne (h : s.head? ≠ some '\\') : className? s = classNameFrom? [] s := by
  unfold className?
  split
  next separator text hsplit =>
  split at hsplit
  · exact absurd rfl h
  · obtain ⟨rfl, rfl⟩ := Prod.mk.inj hsplit
    cases s <;> rfl

theorem classNameFrom?_codeOf {separator : Line} (h : classNameFrom? separator s = some name) :
    classNameFrom? separator (codeOf s) = some name ∧ (codeOf s).head? = s.head? ∧
      StartsInert s := by
  cases s with
  | nil => cases h
  | cons c s =>
    rw [classNameFrom?] at h
    split_ifs at h with hc
    have hinert := isInert_of_isIdentifierStart hc
    have hword := (takeWhile_codeOf isInert_of_isNameChar (by decide) (c :: s)).1
    rw [codeOf_cons hinert] at hword ⊢
    rw [classNameFrom?, if_pos hc, hword]
    exact ⟨h, rfl, startsInert_cons hinert (isBlank_of_isIdentifierStart hc) s⟩

/-- A class name is read from the code as from the line. -/
theorem className?_codeOf (h : className? s = some name) :
    className? (codeOf s) = some name ∧ StartsInert s := by
  rcases Decidable.em (s.head? = some '\\') with hhead | hhead
  · obtain ⟨rest, rfl⟩ := List.head?_eq_some_iff.mp hhead
    rw [className?_cons_separator] at h
    rw [codeOf_cons rfl, className?_cons_separator]
    exact ⟨(classNameFrom?_codeOf h).1, startsInert_cons rfl rfl rest⟩
  · rw [className?_of_ne hhead] at h
    obtain ⟨hcode, hsame, hstarts⟩ := classNameFrom?_codeOf h
    exact ⟨by rw [className?_of_ne (hsame ▸ hhead), hcode], hstarts⟩

theorem operandOfNew?_codeOf (h : operandOfNew? s = some operand) (hoperand : StartsInert operand) :
    operandOfNew? (codeOf s) = some (codeOf operand) ∧ StartsInert s := by
  rw [operandOfNew?] at h
  split at h
  · next c rest hnew =>
    split_ifs at h with hblank
    obtain rfl := Option.some.inj h
    have hs := afterPrefix?_eq_some.mp hnew
    have hcode : codeOf s = "new".toList ++ c :: codeOf rest := by
      rw [hs, codeOf_append (List.all_eq_true.mp (by decide)),
        codeOf_cons (isInert_of_isBlank hblank)]
    rw [operandOfNew?, afterPrefix?_eq_some.mpr hcode]
    dsimp only
    rw [if_pos hblank, dropBlanks_codeOf (startsInert_dropBlanks.mp hoperand), hs]
    exact ⟨rfl, startsInert_cons rfl rfl _⟩
  · cases h

theorem assigned?_codeOf (h : assigned? s = some t) (ht : StartsInert t) :
    assigned? (codeOf s) = some (codeOf t) := by
  rw [assigned?] at h
  split at h
  · next rest hrest =>
    obtain rfl := Option.some.inj h
    have hstarts : StartsInert s := ⟨'=', by rw [hrest]; rfl, rfl⟩
    rw [assigned?, dropBlanks_codeOf hstarts, hrest, codeOf_cons rfl]
    exact congrArg some (dropBlanks_codeOf (startsInert_dropBlanks.mp ht))
  · cases h

theorem assignedToAny?_codeOf (h : assignedToAny? s = some t) (ht : StartsInert t) :
    assignedToAny? (codeOf s) = some (codeOf t) := by
  rw [assignedToAny?.eq_def] at h
  split at h
  · next c rest =>
    split_ifs at h with hc
    have hword := (takeWhile_codeOf (fun _ => isInert_of_isIdentifierPart) (by decide) rest).2
    rw [codeOf_cons rfl, codeOf_cons (isInert_of_isIdentifierStart hc), assignedToAny?, if_pos hc,
      hword]
    exact assigned?_codeOf h ht
  · cases h

/-- What the line creates is read behind its blanks, and behind an assignment. -/
theorem instantiatedClass?_eq_some : instantiatedClass? line = some name ↔
    ∃ created operand,
      (if (dropBlanks line).head? = some '$' then assignedToAny? (dropBlanks line)
        else some (dropBlanks line)) = some created ∧
      operandOfNew? created = some operand ∧ className? operand = some name := by
  rw [instantiatedClass?, Option.bind_eq_some_iff]
  simp only [Option.bind_eq_some_iff]
  constructor
  · rintro ⟨operand, ⟨created, hcreated, hoperand⟩, hname⟩
    exact ⟨created, operand, hcreated, hoperand, hname⟩
  · rintro ⟨created, operand, hcreated, hoperand, hname⟩
    exact ⟨operand, ⟨created, hcreated, hoperand⟩, hname⟩

/-- On a line that starts in code the class that is created is the one that its code creates. -/
theorem instantiatedClass?_maskLine (h : instantiatedClass? line = some name) :
    instantiatedClass? (maskLine .code line).1 = some name := by
  obtain ⟨created, operand, hcreated, hoperand, hname⟩ := instantiatedClass?_eq_some.mp h
  obtain ⟨hname', hoperandStarts⟩ := className?_codeOf hname
  obtain ⟨hoperand', hcreatedStarts⟩ := operandOfNew?_codeOf hoperand hoperandStarts
  refine instantiatedClass?_eq_some.mpr ⟨codeOf created, codeOf operand, ?_, hoperand', hname'⟩
  rw [← codeOf]
  split_ifs at hcreated with hassigned
  · obtain ⟨rest, hrest⟩ := List.head?_eq_some_iff.mp hassigned
    rw [dropBlanks_codeOf ⟨'$', hassigned, rfl⟩,
      if_pos (by rw [hrest, codeOf_cons rfl]; rfl)]
    exact assignedToAny?_codeOf hcreated hcreatedStarts
  · obtain rfl := Option.some.inj hcreated
    have hn := head?_of_operandOfNew? hoperand'
    rw [dropBlanks_codeOf (startsInert_dropBlanks.mp hcreatedStarts), if_neg (by rw [hn]; decide)]

/-! ## The two lines -/

section Lines

variable {lines : List Line} {bound described : Nat}

/-- The class of the object that the code of a line creates. -/
def createdClass? (lines : List Line) (index : Nat) : Option (List Char) :=
  ((rows lines)[index]?).bind fun row => instantiatedClass? row.code

theorem instantiatedClass?_of_instantiates {code : Line} (h : instantiates code = true) :
    (instantiatedClass? code).isSome = true := by
  rw [instantiatedClass?, if_neg (by rw [head?_of_instantiates h]; decide)]
  exact h

/-- A line that creates an object and does not create it bare assigns it. -/
theorem head?_of_instantiatedClass? {code : Line} (h : (instantiatedClass? code).isSome = true)
    (hbare : instantiates code = false) : (dropBlanks code).head? = some '$' := by
  by_contra hhead
  rw [instantiatedClass?, if_neg hhead] at h
  rw [instantiates, ← Bool.not_eq_true] at hbare
  exact hbare h

/-- A line on which an object is created, assigned or not. -/
def Creates (lines : List Line) (index : Nat) : Prop :=
  Selects (fun code => (instantiatedClass? code).isSome) (rows lines) index

theorem locate_anyInstantiation : anyInstantiation.locate lines = .found described ↔
    Creates lines described ∧ ∀ i < described, ¬ Creates lines i := by
  rw [anyInstantiation, Anchor.locate, firstMatch_eq_found]
  rfl

/-- The line at `described`, from which the class is read, next to the line at `bound`, on which the
object is assigned. -/
structure ClassLine (lines : List Line) (bound described : Nat) (mainClass : List Char) : Prop where
  /-- The class stands on the line as it is written. -/
  exists_line : ∃ line, lines[described]? = some line ∧ instantiatedClass? line = some mainClass
  creates : Creates lines described
  /-- No line above creates an object. -/
  first : ∀ i < described, ¬ Creates lines i
  /-- It is the same line, or one further up that assigns its object to a variable. -/
  eq_or_lt : described = bound ∨ described < bound ∧
    ∃ row, (rows lines)[described]? = some row ∧ (dropBlanks row.code).head? = some '$'
  class_of_code : stateBefore lines described = .code →
    createdClass? lines described = some mainClass

theorem createdClass?_eq_some {name : List Char} {line : Line}
    (hline : lines[described]? = some line) (hclass : instantiatedClass? line = some name)
    (hcode : stateBefore lines described = .code) :
    createdClass? lines described = some name := by
  rw [createdClass?, getElem?_rows, hline, hcode]
  exact instantiatedClass?_maskLine hclass

theorem exists_createdClass? (hbound : bareInstantiation.locate lines = .found bound) :
    ∃ created, createdClass? lines bound = some created := by
  obtain ⟨⟨row, hrow, -, hbare⟩, -⟩ := firstMatch_eq_found.mp hbound
  rw [createdClass?, hrow]
  exact Option.isSome_iff_exists.mp (instantiatedClass?_of_instantiates hbare)

variable {path : Path} {text mainClass : String}

/-- The class is read from the line of the bare instantiation, or from one above it that assigns its
object to a variable. -/
theorem exists_classLine (hmain : mainInstance path text = .ok mainClass)
    (hbound : bareInstantiation.locate (SourceText.parse text).lines = .found bound) :
    ∃ described, ClassLine (SourceText.parse text).lines bound described mainClass.toList := by
  obtain ⟨described, hdescribed, hname⟩ := Except.bind_eq_ok.mp hmain
  obtain ⟨hcreates, hfirst⟩ := locate_anyInstantiation.mp (find_eq_ok.mp hdescribed)
  split at hname
  case h_2 => cases hname
  case h_1 name hread =>
    obtain rfl := Except.ok.inj hname
    obtain ⟨line, hline, hclass⟩ := Option.bind_eq_some_iff.mp hread
    obtain ⟨⟨row, hrow, hdepth, hbare⟩, hfirst'⟩ := firstMatch_eq_found.mp hbound
    rw [String.toList_ofList]
    refine ⟨described, ⟨line, hline, hclass⟩, hcreates, hfirst, ?_,
      createdClass?_eq_some hline hclass⟩
    rcases Nat.lt_trichotomy described bound with hlt | heq | hgt
    · obtain ⟨row', hrow', hdepth', hany⟩ := hcreates
      refine Or.inr ⟨hlt, row', hrow', head?_of_instantiatedClass? hany ?_⟩
      rw [← Bool.not_eq_true]
      exact fun hbare' => hfirst' described hlt ⟨row', hrow', hdepth', hbare'⟩
    · exact Or.inl heq
    · exact absurd ⟨row, hrow, hdepth, instantiatedClass?_of_instantiates hbare⟩ (hfirst bound hgt)

end Lines

end PluginWorkshop.Php
