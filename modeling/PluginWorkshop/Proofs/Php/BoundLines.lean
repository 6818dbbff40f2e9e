import PluginWorkshop.Proofs.Php.Bindings
import PluginWorkshop.Proofs.Php.ClassTexts
import PluginWorkshop.Proofs.Php.Likeness

/-!
# Lines on which the plugin object is assigned

An assignment that is put on the line of the plugin object stands in front of `new`. None of the
searches for the places of a wiring reads anything of it there (`Unread`): it holds no marker, no
semicolon, brace or bracket, and a row that ends in attributes is read from its end. So the line
looks the same to a wiring (`alike_bindLine`), and is none of the lines that are to be inserted
(`trim_bindLine_ne`); the same lines are inserted on the same places
(`wiringInsertions_set_bindLine`).
-/

namespace PluginWorkshop.Php

open Text

variable {name line rest p p' q s t t' : Line} {state : LexState} {c : Char}

/-! ## The last character -/

theorem head?_dropBlanks (s : List Char) : (dropBlanks s).head? = s.find? (!isBlank ·) := by
  induction s with
  | nil => rfl
  | cons c s ih =>
    rw [dropBlanks, List.dropWhile_cons, List.find?_cons]
    cases isBlank c with
    | true => exact ih
    | false => rfl

/-- The last character of a trimmed text is the last one that is no blank. -/
theorem getLast?_trim (s : List Char) : (trim s).getLast? = s.reverse.find? (!isBlank ·) := by
  have hfront : (s.takeWhile isBlank).reverse.find? (!isBlank ·) = none :=
    List.find?_eq_none.mpr fun c hc => by simp [List.mem_takeWhile_imp (List.mem_reverse.mp hc)]
  have hsplit : s.reverse = (dropBlanks s).reverse ++ (s.takeWhile isBlank).reverse := by
    rw [← List.reverse_append, dropBlanks, List.takeWhile_append_dropWhile]
  rw [hsplit, List.find?_append, hfront, Option.or_none, ← head?_dropBlanks, trim, dropBlanksRight,
    List.getLast?_reverse]
  rfl

/-! ## Attributes behind other code -/

theorem dropBlanks_append_cons (hc : isBlank c = false) (s q : Line) :
    dropBlanks (s ++ c :: q) = dropBlanks s ++ c :: q := by
  rw [dropBlanks, List.dropWhile_append, List.dropWhile_cons_of_neg (by simp [hc]), dropBlanks]
  split_ifs with hs
  · rw [List.isEmpty_iff.mp hs, List.nil_append]
  · rfl

theorem scanAttributes_hash {tail : Line} {e : Char} (h : dropBlanks rest = e :: tail) :
    scanAttributes 1 ('[' :: '#' :: rest) =
      if e = ']' then scanAttributes 0 rest else .rejected := by
  rw [scanAttributes.eq_4, h]
  split <;> simp_all

/-- Read backwards, an attribute ends in front of other code, if it does not go on over it. -/
theorem scanAttributes_append_cons (hc : c ∉ ['[', ']', '#']) (hblank : isBlank c = false)
    (hopen : '[' ∉ q) (hclose : ']' ∉ q) (depth : Nat) (s : Line) :
    scanAttributes depth (s ++ c :: q) = scanAttributes depth (s ++ [c]) := by
  simp only [List.mem_cons, List.not_mem_nil, or_false, not_or] at hc
  obtain ⟨hopen', hclose', hhash⟩ := hc
  induction depth, s using scanAttributes.induct with
  | case1 depth =>
    cases depth with
    | zero => simp [scanAttributes.eq_3 c _ hclose', hblank]
    | succ depth =>
      rw [List.nil_append, List.nil_append,
        scanAttributes_of_notMem (by simp [hopen, Ne.symm hopen'])
          (by simp [hclose, Ne.symm hclose']),
        scanAttributes_of_notMem (by simp [Ne.symm hopen']) (by simp [Ne.symm hclose'])]
  | case2 depth rest ih =>
    rw [List.cons_append, List.cons_append, scanAttributes.eq_2, scanAttributes.eq_2, ih]
  | case3 d rest hd hd' ih =>
    rw [List.cons_append, List.cons_append, scanAttributes.eq_3 _ _ hd, scanAttributes.eq_3 _ _ hd,
      ih]
  | case4 d rest hd hd' =>
    rw [List.cons_append, List.cons_append, scanAttributes.eq_3 _ _ hd, scanAttributes.eq_3 _ _ hd,
      if_neg hd', if_neg hd']
  | case5 rest hnil =>
    have hfront : ∀ r, dropBlanks (rest ++ c :: r) = c :: r := fun r => by
      rw [dropBlanks_append_cons hblank, hnil, List.nil_append]
    simp only [List.cons_append, scanAttributes_hash (hfront _), if_neg hclose']
  | case6 rest tail hrest ih =>
    have hfront : ∀ r, dropBlanks (rest ++ c :: r) = ']' :: (tail ++ c :: r) := fun r => by
      rw [dropBlanks_append_cons hblank, hrest, List.cons_append]
    simp only [List.cons_append, scanAttributes_hash (hfront _), ih]
  | case7 rest hnil hclosed =>
    obtain ⟨e, tail, hrest⟩ := List.exists_cons_of_ne_nil hnil
    have he : e ≠ ']' := fun heq => hclosed tail (heq ▸ hrest)
    have hfront : ∀ r, dropBlanks (rest ++ c :: r) = e :: (tail ++ c :: r) := fun r => by
      rw [dropBlanks_append_cons hblank, hrest, List.cons_append]
    simp only [List.cons_append, scanAttributes_hash (hfront _), if_neg he]
  | case8 tail htail =>
    have hnone : ∀ r rest, tail ++ c :: r = '#' :: rest → False := by
      intro r rest h
      cases tail with
      | nil => exact hhash (List.cons.inj h).1
      | cons d tail => exact htail _ (congrArg (· :: tail) (List.cons.inj h).1)
    rw [List.cons_append, List.cons_append, scanAttributes.eq_5 _ (hnone q),
      scanAttributes.eq_5 _ (hnone [])]
  | case9 depth rest ih =>
    rw [List.cons_append, List.cons_append, scanAttributes.eq_6, scanAttributes.eq_6, ih]
  | case10 depth d rest hd _ hopened hpending ih =>
    have hstep : ∀ r, scanAttributes depth.succ (d :: r) = scanAttributes (depth + 1) r := fun r =>
      scanAttributes.eq_7 _ _ _ hd (fun _ hdepth hd _ => hopened hdepth hd) hopened hpending
    rw [List.cons_append, List.cons_append, hstep, hstep, ih]

/-! ## What stands in front of an instantiation -/

/-- The text in front of an instantiation, in which no search for a place of a wiring reads on. -/
structure Unread (p : Line) : Prop where
  suffixFrom?_eq : ∀ marker ∈ [constructorMarker, initializerMarker], ∀ s,
    suffixFrom? marker (p ++ s) = suffixFrom? marker s
  unstructured : ∀ c ∈ p, isStructural c = false
  opening_notMem : '[' ∉ p
  closing_notMem : ']' ∉ p

namespace Unread

/-- Spaces are not read. -/
theorem of_isBlank (hp : ∀ c ∈ p, isBlank c = true) : Unread p where
  suffixFrom?_eq marker hmarker s := by
    have hf : 'f' ∉ p := fun hmem => absurd (hp 'f' hmem) (by decide)
    simp only [List.mem_cons, List.not_mem_nil, or_false] at hmarker
    rcases hmarker with rfl | rfl
    · exact suffixFrom?_append_of_notMem hf s
    · exact suffixFrom?_append_of_notMem hf s
  unstructured c hc := by
    rw [← Bool.not_eq_true]
    intro hstructural
    simp only [isStructural, Bool.or_eq_true, beq_iff_eq] at hstructural
    rcases hstructural with (rfl | rfl) | rfl <;> exact absurd (hp _ hc) (by decide)
  opening_notMem hmem := absurd (hp _ hmem) (by decide)
  closing_notMem hmem := absurd (hp _ hmem) (by decide)

/-- An assignment is of blanks, the variable and an equals sign. -/
theorem notMem_assignment (hname : isIdentifier name = true) (line : Line)
    (hc : (isBlank c || isIdentifierPart c || c == '$' || c == '=') = false) :
    c ∉ assignment name line := by
  simp only [Bool.or_eq_false_iff, beq_eq_false_iff_ne] at hc
  obtain ⟨⟨⟨hblank, hpart⟩, hdollar⟩, hequals⟩ := hc
  have hspace : c ≠ ' ' := by
    rintro rfl
    cases hblank
  simp only [Php.assignment, List.mem_append, List.mem_cons, not_or, String.reduceToList]
  refine ⟨⟨fun hmem => ?_, hdollar, notMem_of_isIdentifier hpart hname⟩, hspace, hequals, hspace,
    List.not_mem_nil⟩
  simp [isBlank_of_mem_indentation hmem] at hblank

/-- Nor is an assignment, whatever the name of the variable: a marker holds no equals sign. -/
theorem assignment (hname : isIdentifier name = true) (line : Line) :
    Unread (assignment name line) where
  suffixFrom?_eq marker hmarker s := by
    have hsplit : Php.assignment name line =
        (indentation line ++ '$' :: name ++ [' ']) ++ ['=', ' '] := by
      simp [Php.assignment]
    have hparen : '(' ∉ indentation line ++ '$' :: name ++ [' '] := fun hmem =>
      notMem_assignment hname line (by decide) (hsplit ▸ List.mem_append_left _ hmem)
    have hequals : '=' ∉ marker ∧ '(' ∈ marker := by
      revert marker
      decide
    rw [hsplit, List.append_assoc, List.cons_append,
      suffixFrom?_append_cons hequals.1 hequals.2 hparen]
    exact (of_isBlank (p := [' ']) (List.all_eq_true.mp rfl)).suffixFrom?_eq marker hmarker s
  unstructured c hc := by
    rw [← Bool.not_eq_true]
    intro hstructural
    simp only [isStructural, Bool.or_eq_true, beq_iff_eq] at hstructural
    rcases hstructural with (rfl | rfl) | rfl <;>
      exact notMem_assignment hname line (by decide) hc
  opening_notMem := notMem_assignment hname line (by decide)
  closing_notMem := notMem_assignment hname line (by decide)

/-- In a comment nothing is read at all. -/
theorem maskInert (h : Unread p) (hstate : state = .code ∨ state = .blockComment) :
    Unread (maskInert state p) := by
  rcases hstate with rfl | rfl
  · exact h
  · exact of_isBlank fun _ => isBlank_of_mem_blanked

theorem skeleton_append (h : Unread p) (s : Line) : skeleton (p ++ s) = skeleton s := by
  have hnone : p.filter isStructural = [] :=
    List.filter_eq_nil_iff.mpr fun c hc => by simp [h.unstructured c hc]
  rw [skeleton, List.filter_append, hnone, List.nil_append]
  rfl

theorem containsText_append (h : Unread p) {marker : Line}
    (hmarker : marker ∈ [constructorMarker, initializerMarker]) (s : Line) :
    containsText marker (p ++ s) = containsText marker s := by
  rw [containsText, containsText, h.suffixFrom?_eq marker hmarker]

/-- Attributes that end on the line do not go on in front of the instantiation. -/
theorem scanAttributes_append (h : Unread p) (hrest : (dropBlanks rest).head? = some 'n')
    (depth : Nat) :
    scanAttributes depth (p ++ rest).reverse = scanAttributes depth rest.reverse := by
  obtain ⟨value, hvalue⟩ : ∃ value, dropBlanks rest = 'n' :: value := by
    obtain ⟨_, value, hvalue⟩ :=
      List.exists_cons_of_ne_nil (List.ne_nil_of_mem (List.mem_of_mem_head? hrest))
    rw [hvalue] at hrest
    exact ⟨value, by rw [hvalue, Option.some.inj hrest]⟩
  have hsplit : rest = rest.takeWhile isBlank ++ 'n' :: value := by
    rw [← hvalue, dropBlanks, List.takeWhile_append_dropWhile]
  have hblank : Unread (rest.takeWhile isBlank) := of_isBlank fun _ => List.mem_takeWhile_imp
  have hfront : ∀ x : Line, '[' ∉ x → ']' ∉ x →
      scanAttributes depth (x ++ 'n' :: value).reverse =
        scanAttributes depth (value.reverse ++ ['n']) := by
    intro x hopen hclose
    rw [List.reverse_append, List.reverse_cons, List.append_assoc, List.singleton_append]
    exact scanAttributes_append_cons (by decide) (by decide) (by simpa using hopen)
      (by simpa using hclose) depth _
  rw [hsplit, ← List.append_assoc, hfront _ hblank.opening_notMem hblank.closing_notMem, hfront]
  · exact fun hmem => (List.mem_append.mp hmem).elim h.opening_notMem hblank.opening_notMem
  · exact fun hmem => (List.mem_append.mp hmem).elim h.closing_notMem hblank.closing_notMem

end Unread

/-- Rows with the same instantiation behind different texts that are not read. -/
theorem alike_of_unread (hp : Unread p) (hp' : Unread p')
    (hrest : (dropBlanks rest).head? = some 'n') (hblank : isAllBlank t = false)
    (hblank' : isAllBlank t' = false) (hindent : indentation t = indentation t')
    (hopens : (trim t = ['\x7b'] ∨ containsText initializerMarker t = true) ↔
      trim t' = ['\x7b'] ∨ containsText initializerMarker t' = true) :
    Row.Alike ⟨t, p ++ rest⟩ ⟨t', p' ++ rest⟩ := by
  have hmem : 'n' ∈ rest := (dropBlanks_sublist rest).subset (List.mem_of_mem_head? hrest)
  have hcode : ∀ x : Line, isAllBlank (x ++ rest) = false := fun x =>
    List.all_eq_false.mpr ⟨'n', List.mem_append_right x hmem, by decide⟩
  have hbrace : ∀ x : Line, trim (x ++ rest) ≠ ['\x7d'] := fun x heq => by
    have hn := mem_trim_of_mem (List.mem_append_right x hmem) (by decide)
    simp [heq] at hn
  have hlast : ∀ x : Line, (trim (x ++ rest)).getLast? = (trim rest).getLast? := fun x => by
    have hsome : (rest.reverse.find? (!isBlank ·)).isSome = true := by
      rw [List.find?_isSome]
      exact ⟨'n', List.mem_reverse.mpr hmem, by decide⟩
    rw [getLast?_trim, getLast?_trim, List.reverse_append, List.find?_append,
      Option.or_of_isSome hsome]
  constructor
  · rw [hp.containsText_append (by simp), hp'.containsText_append (by simp)]
  · rw [hp.suffixFrom?_eq _ (by simp), hp'.suffixFrom?_eq _ (by simp)]
  · rw [hp.skeleton_append, hp'.skeleton_append]
  · exact iff_of_false (hbrace p) (hbrace p')
  · exact (hcode p).trans (hcode p').symm
  · exact hblank.trans hblank'.symm
  · exact hindent
  · exact hopens
  · intro hcomment
    simp [Row.isCommentOnly, Row.isCodeless, hcode] at hcomment
  · rw [hlast, hlast]
  · intro depth
    rw [hp.scanAttributes_append hrest, hp'.scanAttributes_append hrest]

/-! ## Bound lines -/

/-- What follows the indentation of a line that creates an object, as the lexer sees it. -/
theorem head?_maskLine_afterIndentation (hnew : instantiates (maskLine state line).1 = true) :
    (dropBlanks (maskLine state (afterIndentation line)).1).head? = some 'n' := by
  have hstate := state_of_instantiates hnew
  have hhead := head?_of_instantiates hnew
  have hblank : ∀ c ∈ maskInert state (indentation line), isBlank c = true := by
    intro c hc
    rcases hstate with rfl | rfl
    · exact isBlank_of_mem_indentation hc
    · exact isBlank_of_mem_blanked hc
  rwa [maskLine_eq_indentation hstate, dropBlanks_append hblank] at hhead

/-- A line that creates an object looks the same with an assignment put on it. -/
theorem alike_bindLine (hname : isIdentifier name = true)
    (hnew : instantiates (maskLine state line).1 = true) :
    Row.Alike ⟨line, (maskLine state line).1⟩
      ⟨bindLine name line, (maskLine state (bindLine name line)).1⟩ := by
  have hstate := state_of_instantiates hnew
  have hmem : 'n' ∈ line :=
    mem_of_masks (forall₂_maskLine state line) (mem_of_instantiates hnew) (by decide)
  have hdollar : '$' ∈ bindLine name line := by simp [bindLine]
  have hbrace : ∀ {s : Line} {c : Char}, c ∈ s → isBlank c = false → c ≠ '\x7b' →
      trim s ≠ ['\x7b'] := by
    intro s c hc hblank hne heq
    have htrim := mem_trim_of_mem hc hblank
    rw [heq, List.mem_singleton] at htrim
    exact hne htrim
  have hindent : Unread (indentation line) := .of_isBlank fun _ => isBlank_of_mem_indentation
  have hassign : Unread (assignment name line) := .assignment hname line
  have hmarker : containsText initializerMarker line =
      containsText initializerMarker (bindLine name line) := by
    conv_lhs => rw [← indentation_append_afterIndentation line,
      hindent.containsText_append (by simp)]
    rw [bindLine_eq, hassign.containsText_append (by simp)]
  rw [maskLine_bindLine hstate hname, maskLine_eq_indentation hstate]
  refine alike_of_unread (hindent.maskInert hstate) (hassign.maskInert hstate)
    (head?_maskLine_afterIndentation hnew) (List.all_eq_false.mpr ⟨_, hmem, by decide⟩)
    (List.all_eq_false.mpr ⟨_, hdollar, by decide⟩) (indentation_bindLine name line).symm ?_
  rw [hmarker, or_iff_right (hbrace hmem (by decide) (by decide)),
    or_iff_right (hbrace hdollar (by decide) (by decide))]

/-! ## Files of lines that look alike -/

section Files

variable {lines lines' : List Line} {property statement text : Line} {index : Nat}

theorem map_text_rows (lines : List Line) : (rows lines).map Row.text = lines := by
  have hrows : ∀ state, (rowsFrom state lines).map Row.text = lines := by
    induction lines with
    | nil => exact fun _ => rfl
    | cons line lines ih => exact fun state => congrArg (line :: ·) (ih _)
  exact hrows .code

theorem find?_of_forall₂ {α : Type} {R : α → α → Prop} {f : α → Bool} {l l' : List α}
    (h : List.Forall₂ R l l') (hf : ∀ x y, R x y → f x = f y) :
    l.find? f = none ∧ l'.find? f = none ∨
      ∃ x y, l.find? f = some x ∧ l'.find? f = some y ∧ R x y := by
  induction h with
  | nil => exact Or.inl ⟨rfl, rfl⟩
  | @cons x y l l' hxy _ ih =>
    rw [List.find?_cons, List.find?_cons, hf x y hxy]
    cases f y with
    | true => exact Or.inr ⟨x, y, rfl, rfl, hxy⟩
    | false => exact ih

theorem indentation_of_alike (h : List.Forall₂ Row.Alike (rows lines) (rows lines')) (index : Nat) :
    indentation (lines[index]?.getD []) = indentation (lines'[index]?.getD []) := by
  have hline : ∀ lines : List Line, lines[index]? = ((rows lines)[index]?).map Row.text := by
    intro lines
    conv_lhs => rw [← map_text_rows lines, List.getElem?_map]
  rw [hline, hline]
  cases hrow : (rows lines)[index]? with
  | none => rw [List.getElem?_eq_none (h.length_eq ▸ List.getElem?_eq_none_iff.mp hrow)]
  | some row =>
    obtain ⟨row', hrow', halike⟩ := exists_getElem?_of_forall₂ h hrow
    rw [hrow']
    exact halike.indentation_eq

theorem bodyIndentation_of_alike (h : List.Forall₂ Row.Alike (rows lines) (rows lines'))
    (closing : Nat) : bodyIndentation lines closing = bodyIndentation lines' closing := by
  have habove : ∀ lines : List Line, (lines.take closing).reverse.find? (!isAllBlank ·) =
      (((rows lines).take closing).reverse.find? fun row => !isAllBlank row.text).map Row.text := by
    intro lines
    conv_lhs => rw [← map_text_rows lines, ← List.map_take, ← List.map_reverse, List.find?_map]
    rfl
  rw [bodyIndentation, bodyIndentation, habove, habove, indentation_of_alike h closing]
  obtain ⟨hnone, hnone'⟩ | ⟨row, row', hrow, hrow', halike⟩ :=
    find?_of_forall₂ (List.forall₂_reverse_iff.mpr (List.forall₂_take closing h))
      fun row row' halike => congrArg (!·) halike.isAllBlank_eq
  · rw [hnone, hnone']
  · rw [hrow, hrow']
    simp only [Option.map_some, halike.opensBody_iff, halike.indentation_eq]

/-- Where lines look alike and read the same of what is to be inserted, the same is inserted. -/
theorem wiringInsertions_of_alike {path : Path} {insertions : List Insertion}
    (h : List.Forall₂ Row.Alike (rows lines) (rows lines'))
    (hproperty : isPresent property lines' = isPresent property lines)
    (hstatement : isPresent statement lines' = isPresent statement lines)
    (hplan : wiringInsertions path lines property statement = .ok insertions) :
    wiringInsertions path lines' property statement = .ok insertions := by
  obtain ⟨D, A, hdeclare, hassign⟩ := exists_places_of_wiringInsertions hplan
  rw [wiringInsertions_eq path hdeclare hassign] at hplan
  rw [wiringInsertions_eq path (propertyAnchor_of_alike h hdeclare)
    (initializerEnd_of_alike h hassign), ← indentation_of_alike h, ← bodyIndentation_of_alike h,
    missing, missing, hproperty, hstatement]
  exact hplan

theorem isPresent_set (hline : lines[index]? = some line) (hold : trim line ≠ text)
    (hnew : trim s ≠ text) : isPresent text (lines.set index s) = isPresent text lines := by
  obtain ⟨a, b, rfl, rfl⟩ := exists_append_of_getElem? hline
  have hold' : (trim line == text) = false := beq_eq_false_iff_ne.mpr hold
  have hnew' : (trim s == text) = false := beq_eq_false_iff_ne.mpr hnew
  rw [set_length_append]
  simp only [isPresent, List.any_append, List.any_cons, hold', hnew']

end Files

/-- One row is exchanged for a row that looks alike. -/
theorem forall₂_alike_set {rows : List Row} {row row' : Row} {index : Nat}
    (hrow : rows[index]? = some row) (halike : Row.Alike row row') :
    List.Forall₂ Row.Alike rows (rows.set index row') := by
  obtain ⟨a, b, rfl, rfl⟩ := exists_append_of_getElem? hrow
  have hself : ∀ rows, List.Forall₂ Row.Alike rows rows := fun _ =>
    List.forall₂_same.mpr fun row _ => .refl row
  rw [set_length_append]
  exact List.rel_append (hself a) (.cons halike (hself b))

/-! ## What a bound line does not read -/

section Reads

variable {text : Line}

theorem dropBlanksRight_prefix (s : Line) : dropBlanksRight s <+: s := by
  rw [dropBlanksRight, ← List.reverse_suffix, List.reverse_reverse]
  exact List.dropWhile_suffix _

theorem head?_dropBlanks_of_trim (h : (trim s).head? = some c) : (dropBlanks s).head? = some c := by
  obtain ⟨rest, hrest⟩ := dropBlanksRight_prefix (dropBlanks s)
  rw [← hrest, List.head?_append]
  exact Option.or_eq_some_iff.mpr (Or.inl h)

/-- Trimming keeps a pattern without blanks. -/
theorem commentEnd_infix_trim (h : ['*', '/'] <:+: s) : ['*', '/'] <:+: trim s := by
  obtain ⟨a, b, rfl⟩ := h
  have hleft : dropBlanks (a ++ ['*', '/'] ++ b) = dropBlanks a ++ '*' :: ('/' :: b) := by
    rw [List.append_assoc]
    exact dropBlanks_append_cons (by decide) a _
  have hright : (dropBlanks a ++ '*' :: ('/' :: b)).reverse =
      b.reverse ++ '/' :: ('*' :: (dropBlanks a).reverse) := by
    simp
  rw [trim, hleft, dropBlanksRight, hright]
  change _ <:+: (dropBlanks _).reverse
  rw [dropBlanks_append_cons (by decide)]
  exact ⟨dropBlanks a, (dropBlanks b.reverse).reverse, by simp⟩

/-- A plain character that comes first on a line in code comes first in its code. -/
theorem head?_dropBlanks_maskLine (hplain : isPlain c = true)
    (h : (dropBlanks line).head? = some c) :
    (dropBlanks (maskLine .code line).1).head? = some c := by
  obtain ⟨d, rest, hrest⟩ :=
    List.exists_cons_of_ne_nil (List.ne_nil_of_mem (List.mem_of_mem_head? h))
  obtain rfl : d = c := by simpa [hrest] using h
  have hblank : ∀ e ∈ line.takeWhile isBlank, isBlank e = true := fun _ => List.mem_takeWhile_imp
  have hline : line = line.takeWhile isBlank ++ d :: rest := by
    rw [← hrest, dropBlanks, List.takeWhile_append_dropWhile]
  have hcode : isBlank d = false := by
    have hhead := head?_dropBlanks line
    rw [h, eq_comm, List.find?_eq_some_iff_append] at hhead
    simpa using hhead.1
  rw [hline, maskLine_inert_append (Or.inl rfl) fun e he => isInert_of_isBlank (hblank e he),
    maskInert_code, dropBlanks_append hblank, maskLine_cons_of_keep (step_of_isPlain hplain _),
    dropBlanks, List.dropWhile_cons_of_neg (by simp [hcode])]
  rfl

/-- A line that creates an object does not read a text that starts otherwise, unless the text has
the end of a comment in it. -/
theorem trim_ne_of_instantiates (hnew : instantiates (maskLine state line).1 = true)
    (hhead : text.head? = some c) (hplain : isPlain c = true) (hne : c ≠ 'n')
    (hend : ¬ ['*', '/'] <:+: text) : trim line ≠ text := by
  rintro rfl
  rcases state_of_instantiates hnew with rfl | rfl
  · have hcode := head?_dropBlanks_maskLine hplain (head?_dropBlanks_of_trim hhead)
    rw [head?_of_instantiates hnew] at hcode
    exact hne (Option.some.inj hcode).symm
  · exact hend (commentEnd_infix_trim
      (commentEnd_infix_of_mem_maskLine (mem_of_instantiates hnew) (by decide)))

/-- Names end with the first character that is no part of them. -/
theorem eq_of_name_append {name' : Line} {d : Char} (hname : ∀ e ∈ name, isIdentifierPart e = true)
    (hname' : ∀ e ∈ name', isIdentifierPart e = true) (hc : isIdentifierPart c = false)
    (hd : isIdentifierPart d = false) (h : name ++ c :: s = name' ++ d :: t) : c = d := by
  have htake := congrArg (List.takeWhile isIdentifierPart) h
  rw [List.takeWhile_append_of_pos hname, List.takeWhile_append_of_pos hname',
    List.takeWhile_cons_of_neg (by simp [hc]), List.takeWhile_cons_of_neg (by simp [hd]),
    List.append_nil, List.append_nil] at htake
  rw [htake, List.append_cancel_left_eq] at h
  exact (List.cons.inj h).1

theorem trim_bindLine_prefix (name line : Line) :
    trim (bindLine name line) <+: '$' :: (name ++ ' ' :: '=' :: ' ' :: afterIndentation line) := by
  have hdrop : dropBlanks (bindLine name line) =
      '$' :: (name ++ ' ' :: '=' :: ' ' :: afterIndentation line) := by
    rw [bindLine_eq, assignment, List.append_assoc, List.append_assoc,
      dropBlanks_append fun _ => isBlank_of_mem_indentation]
    rfl
  rw [trim, hdrop]
  exact dropBlanksRight_prefix _

/-- A bound line reads no text of a class: the variable of a statement is followed by an arrow. -/
theorem trim_bindLine_ne (hname : isIdentifier name = true) (line : Line)
    {property statement : Line} (htexts : ClassTexts property statement) :
    trim (bindLine name line) ≠ property ∧ trim (bindLine name line) ≠ statement := by
  have hprefix := trim_bindLine_prefix name line
  constructor
  · obtain ⟨variableName, -, rfl⟩ := htexts.property_eq
    intro heq
    rw [heq] at hprefix
    exact absurd (List.cons_prefix_cons.mp hprefix).1 (by decide)
  · obtain ⟨rest, rfl⟩ := htexts.statement_eq
    intro heq
    rw [heq] at hprefix
    obtain ⟨behind, hbehind⟩ := (List.cons_prefix_cons.mp hprefix).2
    have hthis : ∀ e ∈ "this".toList, isIdentifierPart e = true :=
      List.all_eq_true.mp (by decide)
    exact absurd (eq_of_name_append hthis (fun e => isIdentifierPart_of_mem hname) (by decide)
      (by decide) hbehind) (by decide)

end Reads

/-- The same is inserted once an assignment is put on the line that creates the plugin object. -/
theorem wiringInsertions_set_bindLine {path : Path} {lines : List Line} {index : Nat}
    {property statement : Line} {insertions : List Insertion} (hname : isIdentifier name = true)
    (htexts : ClassTexts property statement)
    (hfound : bareInstantiation.locate lines = .found index) (hline : lines[index]? = some line)
    (hplan : wiringInsertions path lines property statement = .ok insertions) :
    wiringInsertions path (lines.set index (bindLine name line)) property statement =
      .ok insertions := by
  obtain ⟨-, hnew⟩ := (selects_rows_of_getElem? hline).mp (firstMatch_eq_found.mp hfound).1
  have hstate := state_of_instantiates hnew
  have hafter : (maskLine (stateBefore lines index) (bindLine name line)).2 =
      (maskLine (stateBefore lines index) line).2 := by
    rw [maskLine_bindLine hstate hname, maskLine_eq_indentation hstate line]
  have halike : List.Forall₂ Row.Alike (rows lines)
      (rows (lines.set index (bindLine name line))) := by
    rw [rows_set hline hafter]
    refine forall₂_alike_set ?_ (alike_bindLine hname hnew)
    rw [getElem?_rows, hline]
    rfl
  obtain ⟨hproperty, hstatement⟩ := trim_bindLine_ne hname line htexts
  refine wiringInsertions_of_alike halike (isPresent_set hline ?_ hproperty)
    (isPresent_set hline ?_ hstatement) hplan
  · obtain ⟨variableName, hvariable, rfl⟩ := htexts.property_eq
    refine trim_ne_of_instantiates hnew (c := 'p') rfl (by decide) (by decide) fun hend => ?_
    have hstar : '*' ∈ _ := hend.subset List.mem_cons_self
    simp at hstar
    exact absurd (isIdentifierPart_of_mem hvariable hstar) (by decide)
  · obtain ⟨rest, rfl⟩ := htexts.statement_eq
    exact trim_ne_of_instantiates hnew (c := '$') rfl (by decide) (by decide) htexts.not_endsComment

end PluginWorkshop.Php
