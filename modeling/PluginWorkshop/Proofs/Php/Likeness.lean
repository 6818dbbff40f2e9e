import PluginWorkshop.Proofs.Php.Bodies
import Mathlib.Data.List.Forall2

/-!
# Rows that look alike

The searches for the two places of a wiring read of a row no more than `Row.Alike` compares. Of the
code around the initialization method they read semicolons and braces only (`methodBody_eq`), and on
the way up from the constructor they read whether a row is a comment, and brackets. So where rows
are exchanged for rows that look alike, both places are found on the lines on which they were found
before (`propertyAnchor_of_alike`, `initializerEnd_of_alike`).
-/

namespace PluginWorkshop.Php

open Text

/-! ## Semicolons and braces -/

/-- A character that the search for the body of a method reads. -/
def isStructural (c : Char) : Bool := c == ';' || c == '\x7b' || c == '\x7d'

/-- What the search for the body of a method reads of a line. -/
def skeleton (code : Line) : Line := code.filter isStructural

section Skeleton

variable {marker : Line} {line : Nat}

theorem filter_placedFrom (start : Nat) (lines : List Line) :
    (placedFrom start lines).filter (fun p => isStructural p.2) =
      placedFrom start (lines.map skeleton) := by
  induction lines generalizing start with
  | nil => rfl
  | cons line lines ih =>
    rw [List.map_cons, placedFrom_cons, placedFrom_cons, List.filter_append, ih, List.filter_map]
    rfl

theorem findOpening_filter (placed : List (Nat × Char)) :
    findOpening (placed.filter fun p => isStructural p.2) =
      (findOpening placed).map fun (line, rest) =>
        (line, rest.filter fun p => isStructural p.2) := by
  induction placed with
  | nil => rfl
  | cons p placed ih =>
    obtain ⟨line, c⟩ := p
    rw [List.filter_cons, findOpening]
    split_ifs with hc hsemicolon hbrace hsemicolon hbrace
    · rw [findOpening, if_pos hsemicolon]
      rfl
    · rw [findOpening, if_neg hsemicolon, if_pos hbrace]
      rfl
    · rw [findOpening, if_neg hsemicolon, if_neg hbrace, ih]
    · simp [isStructural, hsemicolon] at hc
    · simp [isStructural, hbrace] at hc
    · exact ih

theorem findClosing_filter (depth : Nat) (placed : List (Nat × Char)) :
    findClosing depth (placed.filter fun p => isStructural p.2) = findClosing depth placed := by
  induction placed generalizing depth with
  | nil => rfl
  | cons p placed ih =>
    rw [List.filter_cons, findClosing_cons]
    split_ifs with hc hopen hclose hopen hclose
    · rw [findClosing_cons, if_pos hopen, ih]
    · rw [findClosing_cons, if_neg hopen, if_pos hclose]
      cases depth with
      | zero => rfl
      | succ depth => exact ih depth
    · rw [findClosing_cons, if_neg hopen, if_neg hclose, ih]
    · simp [isStructural, hopen] at hc
    · simp [isStructural, hclose] at hc
    · exact ih depth

/-- The body of a method is found by the semicolons and braces from its marker on. -/
theorem methodBody_eq (marker : Line) (line : Nat) (code : List Line) :
    methodBody marker line code =
      ((code[line]?.bind (suffixFrom? marker)).map skeleton).bind fun head =>
        (findOpening (placedFrom line (head :: (code.map skeleton).drop (line + 1)))).bind
          fun (opening, body) => (findClosing 0 body).map fun closing => (opening, closing) := by
  rw [methodBody]
  cases code[line]? with
  | none => rfl
  | some declaration =>
    rw [Option.bind_some]
    change (suffixFrom? marker declaration).bind _ = _
    cases suffixFrom? marker declaration with
    | none => rfl
    | some head =>
      rw [Option.map_some, Option.bind_some, Option.bind_some, ← List.map_drop, ← List.map_cons,
        ← filter_placedFrom, findOpening_filter]
      change (findOpening _).bind _ = _
      cases findOpening (placedFrom line (head :: code.drop (line + 1))) with
      | none => rfl
      | some found =>
        obtain ⟨opening, body⟩ := found
        rw [Option.map_some, Option.bind_some, Option.bind_some]
        dsimp only
        rw [findClosing_filter]
        change (findClosing 0 body).bind _ = _
        cases findClosing 0 body <;> rfl

end Skeleton

/-! ## Rows -/

namespace Row

/-- Rows that a wiring does not tell apart, unless one of them reads what is to be inserted. -/
structure Alike (r r' : Row) : Prop where
  constructor_eq : containsText constructorMarker r.code = containsText constructorMarker r'.code
  initializer_eq : (suffixFrom? initializerMarker r.code).map skeleton =
    (suffixFrom? initializerMarker r'.code).map skeleton
  skeleton_eq : skeleton r.code = skeleton r'.code
  brace_iff : trim r.code = ['\x7d'] ↔ trim r'.code = ['\x7d']
  isCodeless_eq : r.isCodeless = r'.isCodeless
  isAllBlank_eq : isAllBlank r.text = isAllBlank r'.text
  indentation_eq : indentation r.text = indentation r'.text
  /-- An indented body opens on the line. -/
  opensBody_iff : (trim r.text = ['\x7b'] ∨ containsText initializerMarker r.text = true) ↔
    trim r'.text = ['\x7b'] ∨ containsText initializerMarker r'.text = true
  /-- Of a comment it matters whether it opens on the line. -/
  opensComment_eq : r.isCommentOnly = true → opensComment r.text = opensComment r'.text
  bracket_iff : (trim r.code).getLast? = some ']' ↔ (trim r'.code).getLast? = some ']'
  scan_eq : ∀ depth, scanAttributes depth r.code.reverse = scanAttributes depth r'.code.reverse

theorem Alike.refl (r : Row) : Alike r r :=
  ⟨rfl, rfl, rfl, .rfl, rfl, rfl, rfl, .rfl, fun _ => rfl, .rfl, fun _ => rfl⟩

theorem Alike.isCommentOnly_eq {r r' : Row} (h : Alike r r') :
    r.isCommentOnly = r'.isCommentOnly := by
  rw [isCommentOnly, isCommentOnly, h.isCodeless_eq, h.isAllBlank_eq]

theorem Alike.containsText_initializerMarker {r r' : Row} (h : Alike r r') :
    containsText initializerMarker r.code = containsText initializerMarker r'.code := by
  rw [containsText, containsText, ← Option.isSome_map, h.initializer_eq, Option.isSome_map]

end Row

variable {rows rows' above above' : List Row} {marker : Line} {n : Nat}

theorem exists_getElem?_of_forall₂ {α : Type} {R : α → α → Prop} {l l' : List α} {x : α}
    (h : List.Forall₂ R l l') (hx : l[n]? = some x) : ∃ y, l'[n]? = some y ∧ R x y := by
  obtain ⟨hlt, rfl⟩ := List.getElem?_eq_some_iff.mp hx
  have hlt' : n < l'.length := h.length_eq ▸ hlt
  exact ⟨l'[n], List.getElem?_eq_getElem hlt', h.get hlt hlt'⟩

theorem uniqueMarker_of_alike (h : List.Forall₂ Row.Alike rows rows')
    (hmarker : ∀ r r', Row.Alike r r' → containsText marker r.code = containsText marker r'.code) :
    uniqueMarker marker rows = uniqueMarker marker rows' := by
  have hlines : ∀ start,
      markerLinesFrom start marker rows = markerLinesFrom start marker rows' := by
    induction h with
    | nil => exact fun _ => rfl
    | cons hrow _ ih =>
      intro start
      rw [markerLinesFrom_cons, markerLinesFrom_cons, hmarker _ _ hrow, ih]
  have hlines : markerLines marker rows = markerLines marker rows' := hlines 0
  rw [uniqueMarker, uniqueMarker, hlines]

/-! ## The way up from the constructor -/

theorem attributeLines_of_alike (h : List.Forall₂ Row.Alike above above') (last depth : Nat) :
    attributeLines last depth above = attributeLines last depth above' := by
  induction h generalizing depth with
  | nil => rfl
  | cons hrow hrest ih =>
    rw [attributeLines, attributeLines, hrow.scan_eq, hrest.length_eq]
    cases scanAttributes depth _ with
    | opened => rfl
    | rejected => rfl
    | pending depth' => exact congrArg (Except.map (· + 1)) (ih depth')

theorem length_takeWhile_of_alike (h : List.Forall₂ Row.Alike above above') :
    (above.takeWhile Row.isCommentOnly).length = (above'.takeWhile Row.isCommentOnly).length := by
  induction h with
  | nil => rfl
  | cons hrow _ ih =>
    rw [List.takeWhile_cons, List.takeWhile_cons, hrow.isCommentOnly_eq]
    split
    · rw [List.length_cons, List.length_cons, ih]
    · rfl

/-- The last of the comment lines is one. -/
theorem isCommentOnly_of_getElem? {row first : Row} (hrow : row.isCommentOnly = true)
    (hfirst : (row :: above)[((row :: above).takeWhile Row.isCommentOnly).length - 1]? =
      some first) :
    first.isCommentOnly = true := by
  have hlength : 0 < ((row :: above).takeWhile Row.isCommentOnly).length := by
    rw [List.takeWhile_cons_of_pos hrow]
    exact Nat.succ_pos _
  obtain ⟨rest, hrest⟩ := List.takeWhile_prefix Row.isCommentOnly (l := row :: above)
  have hlast := congrArg (·[((row :: above).takeWhile Row.isCommentOnly).length - 1]?) hrest
  rw [hfirst, List.getElem?_append_left (by omega)] at hlast
  exact List.mem_takeWhile_imp (List.mem_of_getElem? hlast)

theorem blockLines_of_alike {block : Option Nat} (h : List.Forall₂ Row.Alike above above')
    (hblock : blockLines above = .ok block) : blockLines above' = .ok block := by
  cases h with
  | nil => exact hblock
  | @cons row row' above above' hrow hrest =>
    cases block with
    | none =>
      rw [blockLines_eq_none] at hblock ⊢
      rwa [← hrow.isCommentOnly_eq, ← hrow.isCodeless_eq, ← hrow.bracket_iff]
    | some count =>
      rw [blockLines_cons] at hblock ⊢
      rw [← hrow.isCommentOnly_eq, ← hrow.isCodeless_eq, ← hrow.bracket_iff, ← hrest.length_eq,
        ← length_takeWhile_of_alike (.cons hrow hrest),
        ← attributeLines_of_alike (.cons hrow hrest)]
      refine hblock.imp (fun ⟨hcomment, hcount, first, hfirst, hopens⟩ => ?_) id
      obtain ⟨first', hfirst', halike⟩ := exists_getElem?_of_forall₂ (.cons hrow hrest) hfirst
      have honly := isCommentOnly_of_getElem? hcomment (hcount ▸ hfirst)
      exact ⟨hcomment, hcount, first', hfirst', halike.opensComment_eq honly ▸ hopens⟩

theorem climb_of_alike (h : List.Forall₂ Row.Alike above above') (hclimb : climb above = .found n) :
    climb above' = .found n := by
  induction hlength : above.length using Nat.strong_induction_on generalizing above above' with
  | _ length ih =>
    subst hlength
    rcases climb_eq_found.mp hclimb with ⟨hblock, rfl⟩ | ⟨count, hblock, hrest⟩
    · exact climb_eq_found.mpr (Or.inl ⟨blockLines_of_alike h hblock, h.length_eq.symm⟩)
    · have hpos := blockLines_pos hblock
      have hle := blockLines_le hblock
      have hdrop := ih (above.drop count).length (by rw [List.length_drop]; omega)
        (List.forall₂_drop count h) hrest rfl
      exact climb_eq_found.mpr (Or.inr ⟨count, blockLines_of_alike h hblock, hdrop⟩)

/-! ## Both places -/

theorem propertyAnchor_of_alike (h : List.Forall₂ Row.Alike rows rows')
    (hfound : propertyAnchor rows = .found n) : propertyAnchor rows' = .found n := by
  obtain ⟨line, hmarker, hclimb⟩ := propertyAnchor_eq_found.mp hfound
  have hmarker' := uniqueMarker_of_alike h fun _ _ hrow => hrow.constructor_eq
  have habove := List.forall₂_reverse_iff.mpr (List.forall₂_take line h)
  exact propertyAnchor_eq_found.mpr ⟨line, hmarker' ▸ hmarker, climb_of_alike habove hclimb⟩

theorem methodBody_of_alike (h : List.Forall₂ Row.Alike rows rows') (line : Nat) :
    methodBody initializerMarker line (rows.map Row.code) =
      methodBody initializerMarker line (rows'.map Row.code) := by
  have hskeleton : (rows.map Row.code).map skeleton = (rows'.map Row.code).map skeleton := by
    induction h with
    | nil => rfl
    | cons hrow _ ih => simp only [List.map_cons, hrow.skeleton_eq, ih]
  have hhead : ((rows.map Row.code)[line]?.bind (suffixFrom? initializerMarker)).map skeleton =
      ((rows'.map Row.code)[line]?.bind (suffixFrom? initializerMarker)).map skeleton := by
    rw [List.getElem?_map, List.getElem?_map]
    cases hrow : rows[line]? with
    | none =>
      rw [List.getElem?_eq_none (h.length_eq ▸ List.getElem?_eq_none_iff.mp hrow)]
    | some row =>
      obtain ⟨row', hrow', halike⟩ := exists_getElem?_of_forall₂ h hrow
      rw [hrow']
      exact halike.initializer_eq
  rw [methodBody_eq, methodBody_eq, hskeleton, hhead]

theorem Body.of_alike {marker opening closing : Nat} (h : List.Forall₂ Row.Alike rows rows')
    (hbody : Body rows marker opening closing) : Body rows' marker opening closing where
  marker_eq := by
    rw [← hbody.marker_eq]
    exact (uniqueMarker_of_alike h fun _ _ hrow => hrow.containsText_initializerMarker).symm
  body_eq := methodBody_of_alike h marker ▸ hbody.body_eq
  closing_ne := hbody.closing_ne
  alone := by
    have halone := hbody.alone
    rw [List.getElem?_map, Option.map_map, Option.map_eq_some_iff] at halone
    obtain ⟨row, hrow, htrim⟩ := halone
    obtain ⟨row', hrow', halike⟩ := exists_getElem?_of_forall₂ h hrow
    rw [List.getElem?_map, hrow']
    exact congrArg some (halike.brace_iff.mp htrim)

theorem initializerEnd_of_alike (h : List.Forall₂ Row.Alike rows rows')
    (hfound : initializerEnd rows = .found n) : initializerEnd rows' = .found n := by
  obtain ⟨marker, opening, hbody⟩ := initializerEnd_eq_found.mp hfound
  exact initializerEnd_eq_found.mpr ⟨marker, opening, hbody.of_alike h⟩

end PluginWorkshop.Php
