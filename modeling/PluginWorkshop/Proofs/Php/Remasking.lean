import PluginWorkshop.Proofs.Php.Masking

/-!
# Masking a masked copy

A masked copy masks to itself (`masks_and_mask_mask`). The second run reads no comment, for the first
one has blanked them all: where the first run is in a block comment, the second one is in code, and
elsewhere both are in the same state (`LexState.withoutComment`, `maskLine_maskLine`). That a
character which the first run keeps is kept again needs a look at its lookahead, which may have become
a space: a space opens no comment, and a `[` behind a `#` stays (`step_head?_maskLine`).
-/

namespace PluginWorkshop.Php

variable {state next : LexState} {c : Char} {n : Option Char}

/-- The state of the lexer at the same place of the masked copy, which has no comments. -/
def LexState.withoutComment : LexState → LexState
  | .blockComment => .code
  | state => state

/-! ## Spaces -/

/-- A space stays a space, and the state what it is. -/
theorem maskLine_space (state : LexState) (line : Line) :
    maskLine state (' ' :: line) = (' ' :: (maskLine state line).1, (maskLine state line).2) := by
  cases state with
  | code => exact maskLine_cons_of_keep (by simp [step])
  | singleQuoted => exact maskLine_cons_of_blank (by simp [step, stepQuoted])
  | doubleQuoted => exact maskLine_cons_of_blank (by simp [step, stepQuoted])
  | blockComment => exact maskLine_cons_of_blank (by simp [step])

theorem maskLine_blanked (state : LexState) (line : Line) :
    maskLine state (blanked line) = (blanked line, state) := by
  induction line with
  | nil => rfl
  | cons c line ih =>
    rw [blanked] at ih ⊢
    rw [List.map_cons, maskLine_space, ih]

/-! ## Steps -/

/-- Blanked characters are inside a comment or a string, or at either end of a comment. -/
theorem withoutComment_of_blank
    (h : step state c n = .blank next ∨ step state c n = .blankPair next) :
    next.withoutComment = state.withoutComment := by
  cases state <;> simp only [step, stepQuoted] at h <;> rcases h with h | h <;>
    split_ifs at h <;> cases h <;> rfl

/-- Characters that are kept are in no comment. -/
theorem withoutComment_of_keep (h : step state c n = .keep next) :
    state.withoutComment = state ∧ next.withoutComment = next := by
  cases state <;> simp only [step, stepQuoted] at h <;> split_ifs at h <;> cases h <;>
    exact ⟨rfl, rfl⟩

theorem eq_code_of_blankLine (h : step state c n = .blankLine) : state = .code := by
  cases state <;> simp only [step, stepQuoted] at h <;> split_ifs at h <;> rfl

/-- The first character of a line is kept or blanked; a bracket in code is kept. -/
theorem head?_maskLine (state : LexState) (line : Line) :
    (maskLine state line).1.head? = line.head? ∨
      (maskLine state line).1.head? = some ' ' ∧ (state = .code → line.head? ≠ some '[') := by
  cases line with
  | nil => exact Or.inl rfl
  | cons c rest =>
    by_cases hbracket : state = .code ∧ c = '['
    · obtain ⟨rfl, rfl⟩ := hbracket
      have hstep : step .code '[' rest.head? = .keep .code := by simp [step]
      rw [maskLine_cons_of_keep hstep]
      exact Or.inl rfl
    · obtain ⟨d, masked, hmasks, -, hline⟩ := List.forall₂_cons_right_iff.mp
        (forall₂_maskLine state (c :: rest))
      rw [hline]
      rcases hmasks with rfl | rfl
      · exact Or.inl rfl
      · exact Or.inr ⟨rfl, fun hcode hc => hbracket ⟨hcode, Option.some.inj hc⟩⟩

/-- The delimiter that closes a string. -/
theorem stepQuoted_eq_keep {delimiter : Char} (hdelimiter : delimiter ≠ '\\') :
    stepQuoted delimiter state c n = .keep next ↔ c = delimiter ∧ next = .code := by
  rw [stepQuoted]
  split_ifs with hpair hclose
  · exact iff_of_false (by simp) fun h => hdelimiter (h.1.symm.trans hpair.1)
  · simp [hclose, eq_comm]
  · simp [hclose]

/-- A character that is kept is kept before a space too. Only a bracket behind a `#` makes a
difference. -/
theorem step_space_of_keep (h : step state c n = .keep next)
    (hbracket : next = .code → n ≠ some '[') : step state c (some ' ') = .keep next := by
  cases state with
  | code =>
    rw [step] at h
    split_ifs at h with hline hhash hblock hsingle hdouble <;> cases h
    · simp [step, hsingle]
    · simp [step, hdouble]
    · have hno : c ≠ '#' := fun hc => hhash ⟨hc, hbracket rfl⟩
      simp [step, hno, hsingle, hdouble]
  | singleQuoted =>
    obtain ⟨rfl, rfl⟩ := (stepQuoted_eq_keep (by decide)).mp h
    rfl
  | doubleQuoted =>
    obtain ⟨rfl, rfl⟩ := (stepQuoted_eq_keep (by decide)).mp h
    rfl
  | blockComment =>
    rw [step] at h
    split_ifs at h

/-- A character that is kept is kept again, whatever became of the next one. -/
theorem step_head?_maskLine {rest : Line} (h : step state c rest.head? = .keep next) :
    step state c (maskLine next rest).1.head? = .keep next := by
  rcases head?_maskLine next rest with hsame | ⟨hspace, hbracket⟩
  · rw [hsame, h]
  · rw [hspace, step_space_of_keep h hbracket]

/-! ## Lines -/

/-- The second run masks nothing, and goes on as the first one does. -/
theorem maskLine_maskLine (state : LexState) (line : Line) :
    maskLine state.withoutComment (maskLine state line).1 =
      ((maskLine state line).1, (maskLine state line).2.withoutComment) := by
  induction state, line using maskLine.induct with
  | case1 state => rfl
  | case2 state c next rest masked last _ hstep ih =>
    obtain ⟨hstate, hnext⟩ := withoutComment_of_keep hstep
    rw [hnext] at ih
    rw [hstate, maskLine_cons_of_keep hstep, maskLine_cons_of_keep (step_head?_maskLine hstep), ih]
  | case3 state c next rest masked last _ hstep ih =>
    rw [maskLine_cons_of_blank hstep, maskLine_space, ← withoutComment_of_blank (Or.inl hstep), ih]
  | case4 state c next d rest masked last _ hstep ih =>
    rw [maskLine_cons_of_blankPair hstep, maskLine_space, maskLine_space,
      ← withoutComment_of_blank (Or.inr hstep), ih]
  | case5 state c next hstep =>
    rw [maskLine_singleton_of_blankPair hstep, maskLine_space,
      ← withoutComment_of_blank (Or.inr hstep)]
    rfl
  | case6 state c rest hstep =>
    obtain rfl := eq_code_of_blankLine hstep
    rw [maskLine_cons_of_blankLine hstep, maskLine_space]
    exact maskLine_blanked .code (c :: rest)

theorem maskFrom_maskFrom (state : LexState) (lines : List Line) :
    maskFrom state.withoutComment (maskFrom state lines) = maskFrom state lines := by
  induction lines generalizing state with
  | nil => rfl
  | cons line lines ih =>
    simp only [maskFrom, maskLine_maskLine, ih]

theorem forall₂_maskFrom (state : LexState) (lines : List Line) :
    List.Forall₂ (List.Forall₂ Masks) (maskFrom state lines) lines := by
  induction lines generalizing state with
  | nil => exact .nil
  | cons line lines ih => exact .cons (forall₂_maskLine state line) (ih _)

/-- Masking gives as many lines, each with as many characters, which are those of the source or
spaces; and a masked copy is its own masked copy. -/
theorem masks_and_mask_mask (lines : List Line) :
    (mask lines).length = lines.length ∧
      (mask lines).map List.length = lines.map List.length ∧
      List.Forall₂ (List.Forall₂ fun masked c => masked = c ∨ masked = ' ') (mask lines) lines ∧
      mask (mask lines) = mask lines := by
  have hmasks := forall₂_maskFrom .code lines
  have hlengths : List.Forall₂ (· = ·) ((mask lines).map List.length) (lines.map List.length) :=
    List.forall₂_map_left_iff.mpr <|
      List.forall₂_map_right_iff.mpr (hmasks.imp fun _ _ h => h.length_eq)
  rw [List.forall₂_eq_eq_eq] at hlengths
  exact ⟨length_maskFrom .code lines, hlengths, hmasks, maskFrom_maskFrom .code lines⟩

end PluginWorkshop.Php
