import PluginWorkshop.Proofs.Php.Bodies

/-!
# Anchors in live code

A line inserted where the lexer is in a comment or in a string is swallowed by it. The place above
the constructor and the end of the initialization method lie in code unless a comment or a string
runs on into their line in one of the ways that the search does not see (`Anchor.Overrun`,
`stateBefore_eq_code_iff`): since the search reads masked lines, it takes the line of a closing brace
behind the end of a comment for one with a brace alone, and a line with code for one that leaves no
comment open (`not_stateBefore_eq_code`).
-/

namespace PluginWorkshop.Php

open Text

/-! ## Lines that start in a text -/

section Swallowed

variable {line : Line} {c : Char}

/-- The first code on a line that starts in a string is the end of the string. -/
theorem maskLine_quoted {delimiter : Char} {inside : LexState}
    (hinside : step inside = stepQuoted delimiter inside) (line : Line) :
    ∃ n code, (maskLine inside line).1 = List.replicate n ' ' ++ code ∧
      ∀ c ∈ code.head?, c = delimiter := by
  generalize hstate : inside = state
  induction state, line using maskLine.induct with
  | case1 state => exact ⟨0, [], rfl, by simp⟩
  | case2 state d next rest masked last _ haction ih =>
    subst hstate
    rw [maskLine_cons_of_keep haction]
    rw [hinside, stepQuoted] at haction
    split_ifs at haction with hpair hend
    exact ⟨0, _, rfl, by simpa using hend⟩
  | case3 state d next rest masked last _ haction ih =>
    subst hstate
    rw [maskLine_cons_of_blank haction]
    rw [hinside, stepQuoted] at haction
    split_ifs at haction with hpair hend
    obtain ⟨n, code, hcode, hhead⟩ := ih (by simpa using haction)
    exact ⟨n + 1, code, by rw [hcode]; rfl, hhead⟩
  | case4 state d next e rest masked last _ haction ih =>
    subst hstate
    rw [maskLine_cons_of_blankPair haction]
    rw [hinside, stepQuoted] at haction
    split_ifs at haction with hpair hend
    obtain ⟨n, code, hcode, hhead⟩ := ih (by simpa using haction)
    exact ⟨n + 2, code, by rw [hcode]; rfl, hhead⟩
  | case5 state d next haction =>
    rw [maskLine_singleton_of_blankPair haction]
    exact ⟨1, [], rfl, by simp⟩
  | case6 state d rest haction =>
    subst hstate
    rw [hinside, stepQuoted] at haction
    split_ifs at haction

/-- Where there is code on such a line, the end of the string is among it. -/
theorem delimiter_mem_maskLine {delimiter : Char} {inside : LexState}
    (hinside : step inside = stepQuoted delimiter inside) (h : c ∈ (maskLine inside line).1)
    (hc : c ≠ ' ') : delimiter ∈ (maskLine inside line).1 := by
  obtain ⟨n, code, hcode, hhead⟩ := maskLine_quoted hinside line
  rw [hcode] at h ⊢
  rcases List.mem_append.mp h with hspace | h
  · exact absurd (List.eq_of_mem_replicate hspace) hc
  · obtain ⟨d, code, rfl⟩ := List.exists_cons_of_ne_nil (List.ne_nil_of_mem h)
    rw [hhead d rfl]
    simp

/-- Code on a line that starts in a comment stands behind the end of the comment. -/
theorem commentEnd_infix_of_mem_maskLine (h : c ∈ (maskLine .blockComment line).1) (hc : c ≠ ' ') :
    ['*', '/'] <:+: line := by
  have hstep : ∀ {c : Char} {next : Option Char} {action}, step .blockComment c next = action →
      c = '*' ∧ next = some '/' ∧ action = .blankPair .code ∨ action = .blank .blockComment := by
    intro c next action haction
    rw [step] at haction
    split_ifs at haction with hend
    · exact Or.inl ⟨hend.1, hend.2, haction.symm⟩
    · exact Or.inr haction.symm
  generalize hstate : LexState.blockComment = state at h
  induction state, line using maskLine.induct with
  | case1 state => cases h
  | case2 state d next rest masked last _ haction _ =>
    subst hstate
    rcases hstep haction with ⟨-, -, heq⟩ | heq <;> cases heq
  | case3 state d next rest masked last _ haction ih =>
    subst hstate
    rcases hstep haction with ⟨-, -, heq⟩ | heq
    · cases heq
    · cases heq
      rw [maskLine_cons_of_blank haction] at h
      exact (ih rfl ((List.mem_cons.mp h).resolve_left hc)).trans (List.suffix_cons d rest).isInfix
  | case4 state d next e rest masked last _ haction _ =>
    subst hstate
    rcases hstep haction with ⟨rfl, heq, -⟩ | heq
    · cases heq
      exact ⟨[], rest, rfl⟩
    · cases heq
  | case5 state d next haction =>
    rw [maskLine_singleton_of_blankPair haction] at h
    exact absurd (List.mem_singleton.mp h) hc
  | case6 state d rest haction =>
    subst hstate
    rcases hstep haction with ⟨-, -, heq⟩ | heq <;> cases heq

end Swallowed

/-! ## The place above the constructor -/

/-- No block ends right above the place that is reached. -/
theorem blockLines_of_climb {above : List Row} {n : Nat} (h : climb above = .found n) :
    blockLines (above.drop (above.length - n)) = .ok none := by
  induction hlength : above.length using Nat.strong_induction_on generalizing above with
  | _ length ih =>
    subst hlength
    rcases climb_eq_found.mp h with ⟨hnone, rfl⟩ | ⟨count, hblock, hclimb⟩
    · rwa [Nat.sub_self, List.drop_zero]
    · have hpos := blockLines_pos hblock
      have hle := blockLines_le hblock
      have hreach := climb_le hclimb
      rw [List.length_drop] at hreach
      have hrest := ih (above.drop count).length (by rw [List.length_drop]; omega) hclimb rfl
      rw [List.length_drop, List.drop_drop] at hrest
      rwa [show above.length - n = count + (above.length - count - n) by omega]

/-- The line above the place of a property is blank, or bears code and ends no attribute. -/
theorem exists_above_propertyAnchor {rows : List Row} {index : Nat}
    (h : propertyAnchor rows = .found (index + 1)) :
    ∃ above, rows[index]? = some above ∧ above.isCommentOnly = false ∧
      ¬ (above.isCodeless = false ∧ (trim above.code).getLast? = some ']') := by
  obtain ⟨marker, -, hclimb⟩ := propertyAnchor_eq_found.mp h
  have hblock := blockLines_of_climb hclimb
  have hreach := climb_le hclimb
  have hindex : index < rows.length := Nat.lt_of_succ_lt (propertyAnchor_lt h)
  rw [List.length_reverse, List.length_take] at hreach
  rw [List.length_reverse, List.drop_reverse, List.length_take, Nat.sub_sub_self hreach,
    List.take_take, Nat.min_eq_left (hreach.trans (Nat.min_le_left _ _)),
    List.take_succ_eq_append_getElem hindex, List.reverse_concat, blockLines_eq_none] at hblock
  exact ⟨rows[index], List.getElem?_eq_getElem hindex, hblock⟩

/-! ## Both places -/

/-- How a comment or a string that the search does not see runs on into the line of an anchor. The
line above the place of a property bears code or is blank; on the line of the closing brace of the
initialization method a comment ends. -/
def Anchor.Overrun (lines : List Line) (index : Nat) : Anchor → Prop
  | beforeConstructor => stateBefore lines index ≠ .code ∧
      ∃ row, (rows lines)[index - 1]? = some row ∧ row.isCommentOnly = false
  | endOfInitializer => stateBefore lines index = .blockComment ∧
      ∃ line, lines[index]? = some line ∧ ['*', '/'] <:+: line
  | marker _ _ _ => False

theorem overrun_of_propertyAnchor {lines : List Line} {index : Nat}
    (h : propertyAnchor (rows lines) = .found index) (hstate : stateBefore lines index ≠ .code) :
    Anchor.beforeConstructor.Overrun lines index := by
  cases index with
  | zero => exact absurd rfl hstate
  | succ index =>
    obtain ⟨above, habove, hcomment, -⟩ := exists_above_propertyAnchor h
    exact ⟨hstate, above, habove, hcomment⟩

theorem overrun_of_initializerEnd {lines : List Line} {index : Nat}
    (h : initializerEnd (rows lines) = .found index) (hstate : stateBefore lines index ≠ .code) :
    Anchor.endOfInitializer.Overrun lines index := by
  obtain ⟨marker, opening, hbody⟩ := initializerEnd_eq_found.mp h
  obtain ⟨row, hrow, hbrace, hcode⟩ := hbody.closing_code
  rw [getElem?_rows, Option.map_eq_some_iff] at hrow
  obtain ⟨line, hline, rfl⟩ := hrow
  dsimp only at hbrace hcode
  -- The end of a string would stand on the line next to the brace.
  cases hinside : stateBefore lines index with
  | code => exact absurd hinside hstate
  | blockComment =>
    rw [hinside] at hbrace
    exact ⟨hinside, line, hline, commentEnd_infix_of_mem_maskLine hbrace (by decide)⟩
  | singleQuoted =>
    rw [hinside] at hbrace hcode
    have hend := delimiter_mem_maskLine (by funext c next; rfl) hbrace (by decide)
    exact absurd (hcode _ hend (by decide)) (by decide)
  | doubleQuoted =>
    rw [hinside] at hbrace hcode
    have hend := delimiter_mem_maskLine (by funext c next; rfl) hbrace (by decide)
    exact absurd (hcode _ hend (by decide)) (by decide)

/-- The places at which a class is wired in lie in code unless a comment or a string runs on into
their lines unseen. -/
theorem stateBefore_eq_code_iff {anchor : Anchor} {lines : List Line} {index : Nat}
    (hanchor : anchor = .beforeConstructor ∨ anchor = .endOfInitializer)
    (h : anchor.locate lines = .found index) :
    stateBefore lines index = .code ↔ ¬ anchor.Overrun lines index := by
  rcases hanchor with rfl | rfl
  · refine ⟨fun hcode hoverrun => hoverrun.1 hcode, fun hnone => ?_⟩
    by_contra hstate
    exact hnone (overrun_of_propertyAnchor h hstate)
  · refine ⟨fun hcode ⟨hstate, _⟩ => ?_, fun hnone => ?_⟩
    · simp [hcode] at hstate
    · by_contra hstate
      exact hnone (overrun_of_initializerEnd h hstate)

/-- A class whose constructor and whose initialization method's end stand behind comments. -/
def commentedClass : List Line := [
  "class Plugin \x7b".toList,
  "    private $state; /* what the plugin".toList,
  "     * is in */ function __construct() \x7b".toList,
  "    \x7d".toList,
  "    function instantiate() \x7b".toList,
  "        /*".toList,
  "         * nothing yet".toList,
  "         */ \x7d".toList,
  "\x7d".toList]

/-- Its initialization method ends where a comment ends. -/
theorem stateBefore_eq_code_iff_commentedClass :
    Anchor.endOfInitializer.locate commentedClass = .found 7 ∧
      (stateBefore commentedClass 7 = .code ↔ ¬ Anchor.endOfInitializer.Overrun commentedClass 7) := by
  have hfound : Anchor.endOfInitializer.locate commentedClass = .found 7 := by decide
  exact ⟨hfound, stateBefore_eq_code_iff (Or.inr rfl) hfound⟩

/-- Lines that are found for an insertion may lie in a comment. -/
theorem not_stateBefore_eq_code : ¬ ∀ (anchor : Anchor) (lines : List Line) (index : Nat),
    anchor = .beforeConstructor ∨ anchor = .endOfInitializer →
      anchor.locate lines = .found index → stateBefore lines index = .code := by
  intro h
  have hfound : Anchor.beforeConstructor.locate commentedClass = .found 2 := by decide +kernel
  have hinside : stateBefore commentedClass 2 = .blockComment := by decide
  have hcode := h .beforeConstructor commentedClass 2 (Or.inl rfl) hfound
  rw [hinside] at hcode
  cases hcode

end PluginWorkshop.Php
