import PluginWorkshop.Proofs.Php.Bodies

/-!
# Wired lines

The lines that wire a class are of plain code and quoted texts, and no space in their code is
followed as the space of a marker is. Such a line is `Inert`: it opens and closes nothing and bears
no marker. It is put together from its end on (`Inert.literal`, `Inert.code_append`,
`Inert.name_append`, `Inert.quote_append`), and stays inert when it is indented (`Wirable.indented`).
-/

namespace PluginWorkshop.Php

open Text Quoted

/-! ## Spaces of markers -/

/-- A space of the text is followed as the space of a marker is. -/
def hasMarkerSpace : List Char → Bool
  | [] => false
  | c :: rest =>
    c == ' ' && (['_', '_', 'c'].isPrefixOf rest || ['i'].isPrefixOf rest) || hasMarkerSpace rest

theorem hasMarkerSpace_of_append {b : List Char} (h : hasMarkerSpace b = true) (a : List Char) :
    hasMarkerSpace (a ++ b) = true := by
  induction a with
  | nil => exact h
  | cons c a ih => rw [List.cons_append, hasMarkerSpace, ih, Bool.or_true]

/-- A text that contains a marker has the space of the marker in it. -/
theorem containsText_eq_false {front rest s : List Char}
    (hspace : ∀ b, hasMarkerSpace (' ' :: rest ++ b) = true) (h : hasMarkerSpace s = false) :
    containsText (front ++ ' ' :: rest) s = false := by
  rw [Bool.eq_false_iff, Ne, containsText_iff]
  rintro ⟨a, b, rfl⟩
  have hsplit : a ++ (front ++ ' ' :: rest) ++ b = (a ++ front) ++ (' ' :: rest ++ b) := by simp
  rw [hsplit, hasMarkerSpace_of_append (hspace b)] at h
  cases h

theorem constructorMarker_eq : constructorMarker =
    "function".toList ++ ' ' :: '_' :: '_' :: 'c' :: "onstruct(".toList := by
  decide

theorem initializerMarker_eq : initializerMarker =
    "function".toList ++ ' ' :: 'i' :: "nstantiate(".toList := by
  decide

theorem hasMarkerSpace_append_of_notMem {a : List Char} (ha : ' ' ∉ a) (s : List Char) :
    hasMarkerSpace (a ++ s) = hasMarkerSpace s := by
  induction a with
  | nil => rfl
  | cons c a ih =>
    rw [List.mem_cons, not_or] at ha
    rw [List.cons_append, hasMarkerSpace, ih ha.2]
    simp [Ne.symm ha.1]

/-- What follows a text that does not end within the start of a marker makes no difference to it. -/
theorem hasMarkerSpace_append {a : List Char} (h : hasMarkerSpace a = false)
    (hlast : ∀ c ∈ a.getLast?, c ≠ ' ' ∧ c ≠ '_') (s : List Char) :
    hasMarkerSpace (a ++ s) = hasMarkerSpace s := by
  induction a with
  | nil => rfl
  | cons c a ih =>
    rw [hasMarkerSpace, Bool.or_eq_false_iff] at h
    cases a with
    | nil =>
      have hc := (hlast c rfl).1
      rw [List.singleton_append, hasMarkerSpace]
      simp [hc]
    | cons d a =>
      have hrest := ih h.2 fun e he => hlast e (by rwa [List.getLast?_cons_cons])
      -- The start of a marker within the text is whole, since the text does not end in one.
      have hstart : (['_', '_', 'c'].isPrefixOf (d :: a ++ s) || ['i'].isPrefixOf (d :: a ++ s)) =
          (['_', '_', 'c'].isPrefixOf (d :: a) || ['i'].isPrefixOf (d :: a)) := by
        match a, hlast with
        | [], hlast => simp [List.isPrefixOf, Ne.symm (hlast d rfl).2]
        | [e], hlast => simp [List.isPrefixOf, Ne.symm (hlast e rfl).2]
        | e :: f :: a, _ => simp [List.isPrefixOf]
      rw [List.cons_append, hasMarkerSpace, hrest, hstart, h.1, Bool.false_or]

/-- The content of a quoted text is blank, and the quote behind it ends no marker. -/
theorem hasMarkerSpace_blanked (a s : List Char) :
    hasMarkerSpace (blanked a ++ '\'' :: s) = hasMarkerSpace s := by
  induction a with
  | nil => rfl
  | cons c a ih =>
    change hasMarkerSpace (' ' :: (blanked a ++ '\'' :: s)) = _
    rw [hasMarkerSpace, ih]
    cases a <;> simp [blanked]

/-! ## Inert lines -/

/-- A line of code, with its masked copy, that opens and closes nothing, bears no marker and ends a
statement. -/
structure Inert (line code : Line) : Prop where
  lexes : Lexes line code
  markerSpace : hasMarkerSpace code = false
  getLast?_line : line.getLast? = some ';'
  getLast?_code : code.getLast? = some ';'

/-- A text of code that holds no space of a marker, whatever follows it. -/
def isInertCode (a : List Char) : Bool :=
  a.all isPlain && !hasMarkerSpace a && a.getLast?.all fun c => c != ' ' && c != '_'

namespace Inert

variable {a line code : Line}

theorem getLast?_append (a : List Char) {s : List Char} {c : Char} (h : s.getLast? = some c) :
    (a ++ s).getLast? = some c := by
  rw [List.getLast?_append, h, Option.some_or]

theorem literal (ha : isInertCode a = true) (hlast : a.getLast? = some ';') : Inert a a := by
  simp only [isInertCode, Bool.and_eq_true, List.all_eq_true, Bool.not_eq_true'] at ha
  have hlexes : Lexes (a ++ []) (a ++ []) := Lexes.nil.plain_append ha.1.1
  rw [List.append_nil] at hlexes
  exact ⟨hlexes, ha.1.2, hlast, hlast⟩

theorem code_append (h : Inert line code) (ha : isInertCode a = true) :
    Inert (a ++ line) (a ++ code) := by
  simp only [isInertCode, Bool.and_eq_true, List.all_eq_true, Bool.not_eq_true', Option.all_eq_true,
    bne_iff_ne] at ha
  refine ⟨h.lexes.plain_append ha.1.1, ?_, getLast?_append a h.getLast?_line,
    getLast?_append a h.getLast?_code⟩
  rw [hasMarkerSpace_append ha.1.2 ha.2, h.markerSpace]

theorem name_append (h : Inert line code) (hplain : ∀ c ∈ a, isPlain c = true) (ha : ' ' ∉ a) :
    Inert (a ++ line) (a ++ code) := by
  refine ⟨h.lexes.plain_append hplain, ?_, getLast?_append a h.getLast?_line,
    getLast?_append a h.getLast?_code⟩
  rw [hasMarkerSpace_append_of_notMem ha, h.markerSpace]

theorem quote_append (h : Inert line code) {text : String} (htext : '\n' ∉ text.toList) :
    Inert ((quote text).toList ++ line)
      ('\'' :: (blanked (encode text.toList) ++ ('\'' :: code))) := by
  refine ⟨h.lexes.quote_append htext, ?_, getLast?_append _ h.getLast?_line, ?_⟩
  · rw [hasMarkerSpace, hasMarkerSpace_blanked, h.markerSpace]
    rfl
  · have hend := getLast?_append (blanked (encode text.toList)) (getLast?_append ['\''] h.getLast?_code)
    exact getLast?_append ['\''] hend

/-- A space before a quote is none of a marker. -/
theorem space_quote (h : Inert line ('\'' :: code)) : Inert (' ' :: line) (' ' :: '\'' :: code) := by
  refine ⟨.plain (by decide) h.lexes, ?_, getLast?_append [' '] h.getLast?_line,
    getLast?_append [' '] h.getLast?_code⟩
  rw [hasMarkerSpace, h.markerSpace]
  rfl

theorem containsText_constructorMarker (h : Inert line code) :
    containsText constructorMarker code = false := by
  rw [constructorMarker_eq]
  exact containsText_eq_false (fun _ => rfl) h.markerSpace

theorem containsText_initializerMarker (h : Inert line code) :
    containsText initializerMarker code = false := by
  rw [initializerMarker_eq]
  exact containsText_eq_false (fun _ => rfl) h.markerSpace

theorem ne_of_not_isPlain (h : Inert line code) {c d : Char} (hc : c ∈ code)
    (hd : isPlain d = false) (hquote : d ≠ '\'') : c ≠ d := by
  rintro rfl
  rcases h.lexes.isPlain_of_mem hc with hplain | rfl
  · simp [hd] at hplain
  · exact hquote rfl

/-- It stops the way up from the constructor. -/
theorem solid (h : Inert line code) : (Row.mk line code).Solid := by
  refine ⟨?_, fun hmem => ?_, fun hmem => ?_⟩
  · rw [Row.isCodeless, isAllBlank, List.all_eq_false]
    exact ⟨';', List.mem_of_getLast? h.getLast?_code, by decide⟩
  · exact h.ne_of_not_isPlain hmem (by decide) (by decide) rfl
  · exact h.ne_of_not_isPlain hmem (by decide) (by decide) rfl

/-- It opens and closes no block. -/
theorem ne_brace (h : Inert line code) {c : Char} (hc : c ∈ code) : c ≠ '\x7b' ∧ c ≠ '\x7d' :=
  ⟨h.ne_of_not_isPlain hc (by decide) (by decide), h.ne_of_not_isPlain hc (by decide) (by decide)⟩

end Inert

/-! ## Texts to be wired in -/

theorem isBlank_of_isSpaceOrTab {c : Char} (h : isSpaceOrTab c = true) : isBlank c = true := by
  simp only [isSpaceOrTab, Bool.or_eq_true, beq_iff_eq] at h
  rcases h with rfl | rfl <;> decide

/-- The text starts and ends with a character that is not blank. -/
structure Trimmed (text : Line) : Prop where
  head : ∃ c ∈ text.head?, isBlank c = false
  last : ∃ c ∈ text.getLast?, isBlank c = false

theorem Trimmed.trim_indented {text indent : Line} (h : Trimmed text)
    (hindent : ∀ c ∈ indent, isSpaceOrTab c = true) : trim (indent ++ text) = text := by
  obtain ⟨c, hc, hhead⟩ := h.head
  obtain ⟨d, hd, hlast⟩ := h.last
  obtain ⟨rest, hrest⟩ := List.head?_eq_some_iff.mp hc
  obtain ⟨front, hfront⟩ := List.getLast?_eq_some_iff.mp hd
  have hleft : dropBlanks (indent ++ text) = text := by
    rw [dropBlanks, List.dropWhile_append_of_pos fun e he =>
        isBlank_of_isSpaceOrTab (hindent e he),
      hrest, List.dropWhile_cons_of_neg (by simp [hhead])]
  have hright : dropBlanksRight text = text := by
    rw [hfront, dropBlanksRight, List.reverse_concat, List.dropWhile_cons_of_neg (by simp [hlast]),
      List.reverse_cons, List.reverse_reverse]
  rw [trim, hleft, hright]

theorem Trimmed.ne_nil {text : Line} (h : Trimmed text) : text ≠ [] := by
  rintro rfl
  obtain ⟨c, hc, -⟩ := h.head
  cases hc

/-- A text that may be put on a line of its own, behind any indentation. -/
structure Wirable (text : Line) : Prop where
  inert : ∃ code, Inert text code
  /-- It starts with code that ends no marker. -/
  head : ∃ c rest, text = c :: rest ∧ isPlain c = true ∧ isBlank c = false ∧ c ≠ '_' ∧ c ≠ 'i'

namespace Wirable

variable {indent text : Line}

theorem isPlain_of_isSpaceOrTab {c : Char} (h : isSpaceOrTab c = true) : isPlain c = true := by
  simp only [isSpaceOrTab, Bool.or_eq_true, beq_iff_eq] at h
  rcases h with rfl | rfl <;> decide

theorem hasMarkerSpace_indented (hindent : ∀ c ∈ indent, isSpaceOrTab c = true) {c : Char}
    {rest : List Char} (hscore : c ≠ '_') (hi : c ≠ 'i') :
    hasMarkerSpace (indent ++ c :: rest) = hasMarkerSpace (c :: rest) := by
  induction indent with
  | nil => rfl
  | cons d indent ih =>
    rw [List.cons_append, hasMarkerSpace, ih fun e he => hindent e (List.mem_cons_of_mem d he)]
    cases indent with
    | nil => simp [List.isPrefixOf, Ne.symm hscore, Ne.symm hi]
    | cons e indent =>
      have he := hindent e (by simp)
      have hscore' : '_' ≠ e := by
        rintro rfl
        cases he
      have hi' : 'i' ≠ e := by
        rintro rfl
        cases he
      simp [List.isPrefixOf, hscore', hi']

/-- Behind an indentation the text is inert. -/
theorem indented (h : Wirable text) (hindent : ∀ c ∈ indent, isSpaceOrTab c = true) :
    ∃ code, Inert (indent ++ text) code := by
  obtain ⟨code, hinert⟩ := h.inert
  obtain ⟨c, rest, rfl, hplain, -, hscore, hi⟩ := h.head
  obtain ⟨masked, rfl⟩ : ∃ masked, code = c :: masked := by
    cases hinert.lexes with
    | plain => exact ⟨_, rfl⟩
    | quoted => cases hplain
  refine ⟨indent ++ c :: masked, ?_, ?_, Inert.getLast?_append indent hinert.getLast?_line,
    Inert.getLast?_append indent hinert.getLast?_code⟩
  · exact hinert.lexes.plain_append fun d hd => isPlain_of_isSpaceOrTab (hindent d hd)
  · rw [hasMarkerSpace_indented hindent hscore hi, hinert.markerSpace]

theorem trimmed (h : Wirable text) : Trimmed text := by
  obtain ⟨code, hinert⟩ := h.inert
  obtain ⟨c, rest, hhead, -, hblank, -⟩ := h.head
  exact ⟨⟨c, by simp [hhead], hblank⟩, ';', hinert.getLast?_line, by decide⟩

/-- Trimming takes the indentation away, and nothing else. -/
theorem trim_indented (h : Wirable text) (hindent : ∀ c ∈ indent, isSpaceOrTab c = true) :
    trim (indent ++ text) = text :=
  h.trimmed.trim_indented hindent

end Wirable

end PluginWorkshop.Php
