import PluginWorkshop.Proofs.Php.Masking
import PluginWorkshop.Proofs.Text.Splitting

/-!
# Masking as one pass over the text

A PHP text is masked by an automaton that goes through all of it, line feeds included, with five modes
and one character of lookahead (`Mode.move`, `Mode.run`). Masking line by line comes to the same for
lines put together with line feeds and cut apart again (`mask_eq_run`), so that nothing is lost at the
ends of lines, where the lexer of a line sees no next character: a lone `/`, `#`, `*` or `\` there is
read as the automaton reads it in front of a line feed (`run_append`). Only no lines at all are not
cut apart again: the empty text is one empty line (`not_mask_eq_run`).
-/

namespace PluginWorkshop.Php

open Text

/-! ## The automaton -/

/-- What the automaton is in. -/
inductive Mode where
  | code
  | lineComment
  | blockComment
  | singleQuoted
  | doubleQuoted
  deriving DecidableEq, Repr

/-- What the automaton does with the characters in front of it, and the mode it goes on in. -/
inductive Move where
  /-- Keeps one character. -/
  | keep (next : Mode)
  /-- Blanks one character. -/
  | blank (next : Mode)
  /-- Blanks two characters. -/
  | blankPair (next : Mode)
  deriving DecidableEq, Repr

/-- In a string a backslash takes the next character with it, and the delimiter ends the string. -/
def moveQuoted (delimiter : Char) (inside : Mode) (c : Char) : Move :=
  if c = '\\' then .blankPair inside
  else if c = delimiter then .keep .code
  else .blank inside

/-- The automaton at character `c`, with `next` after it. -/
def Mode.move : Mode → Char → Option Char → Move
  | code, c, next =>
    if c = '/' ∧ next = some '/' then .blank lineComment
    else if c = '#' ∧ next ≠ some '[' then .blank lineComment
    else if c = '/' ∧ next = some '*' then .blankPair blockComment
    else if c = '\'' then .keep singleQuoted
    else if c = '"' then .keep doubleQuoted
    else .keep code
  | lineComment, c, _ => if c = '\n' then .keep code else .blank lineComment
  | blockComment, c, next =>
    if c = '*' ∧ next = some '/' then .blankPair code else .blank blockComment
  | singleQuoted, c, _ => moveQuoted '\'' singleQuoted c
  | doubleQuoted, c, _ => moveQuoted '"' doubleQuoted c

/-- A line feed stays, and everything else becomes a space. -/
def blankOf (c : Char) : Char := if c = '\n' then '\n' else ' '

/-- What the automaton makes of a text that starts in `mode`. -/
def Mode.run (mode : Mode) : List Char → List Char
  | [] => []
  | c :: rest =>
    match mode.move c rest.head?, rest with
    | .keep next, rest => c :: next.run rest
    | .blank next, rest => blankOf c :: next.run rest
    | .blankPair next, d :: rest => blankOf c :: blankOf d :: next.run rest
    | .blankPair _, [] => [blankOf c]

section Run

attribute [local simp] Mode.run

variable {mode next : Mode} {c d : Char} {rest : List Char}

theorem run_cons_of_keep (h : mode.move c rest.head? = .keep next) :
    mode.run (c :: rest) = c :: next.run rest := by
  simp [h]

theorem run_cons_of_blank (h : mode.move c rest.head? = .blank next) :
    mode.run (c :: rest) = blankOf c :: next.run rest := by
  simp [h]

theorem run_cons_of_blankPair (h : mode.move c (some d) = .blankPair next) :
    mode.run (c :: d :: rest) = blankOf c :: blankOf d :: next.run rest := by
  simp [h]

theorem run_singleton_of_blankPair (h : mode.move c none = .blankPair next) :
    mode.run [c] = [blankOf c] := by
  simp [h]

theorem blankOf_of_ne (h : c ≠ '\n') : blankOf c = ' ' := if_neg h

end Run

/-! ## One line of the text -/

/-- The mode that the state of the lexer of a line stands for. No line starts in a line comment. -/
def LexState.mode : LexState → Mode
  | code => .code
  | singleQuoted => .singleQuoted
  | doubleQuoted => .doubleQuoted
  | blockComment => .blockComment

/-- The move that a step on a line stands for. -/
def LexStep.move : LexStep → Move
  | keep next => .keep next.mode
  | blank next => .blank next.mode
  | blankPair next => .blankPair next.mode
  | blankLine => .blank .lineComment

/-- The text ends here, or its line does. -/
def AtLineEnd (tail : List Char) : Prop := ∀ c ∈ tail.head?, c = '\n'

theorem atLineEnd_nil : AtLineEnd [] := by simp [AtLineEnd]

theorem atLineEnd_newline (text : List Char) : AtLineEnd ('\n' :: text) := by simp [AtLineEnd]

section Line

variable {state next : LexState} {c d : Char} {line rest tail : List Char}

/-- What the line goes on with can be seen in the text, and in the text nothing else than a line feed
can be seen besides. -/
theorem head?_append_eq_iff (rest : List Char) (htail : AtLineEnd tail) (hd : d ≠ '\n') :
    (rest ++ tail).head? = some d ↔ rest.head? = some d := by
  cases rest with
  | nil => exact iff_of_false (fun h => hd (htail d h)) (by simp)
  | cons e rest => simp

/-- A string goes on behind a backslash at the end of a line: there alone the automaton takes two
characters, the second one being the line feed, and the lexer of the line one. -/
def EscapesLineEnd (state : LexState) (c : Char) (rest : List Char) : Prop :=
  c = '\\' ∧ rest = [] ∧ step state c none = .blank state ∧
    ∀ n, state.mode.move c n = .blankPair state.mode

theorem moveQuoted_eq {delimiter : Char} (hdelimiter : delimiter ≠ '\\')
    (hstep : step state = stepQuoted delimiter state)
    (hmove : ∀ c n, state.mode.move c n = moveQuoted delimiter state.mode c) (n : Option Char) :
    state.mode.move c n = (step state c rest.head?).move ∨ EscapesLineEnd state c rest := by
  simp only [EscapesLineEnd, hmove, hstep, moveQuoted, stepQuoted]
  by_cases hc : c = '\\'
  · subst hc
    cases rest with
    | nil => exact Or.inr (by simp [Ne.symm hdelimiter])
    | cons d rest => exact Or.inl (by simp [LexStep.move])
  · have hpair : ¬ (c = '\\' ∧ rest.head?.isSome = true) := fun h => hc h.1
    rw [if_neg hc, if_neg hpair]
    exact Or.inl (by split_ifs <;> rfl)

/-- Each step on a line is the move of the automaton, unless a string goes on behind a backslash at
the end of the line. -/
theorem move_eq (state : LexState) (c : Char) (rest : List Char) (htail : AtLineEnd tail) :
    state.mode.move c (rest ++ tail).head? = (step state c rest.head?).move ∨
      EscapesLineEnd state c rest := by
  have hslash := head?_append_eq_iff rest htail (show '/' ≠ '\n' by decide)
  cases state with
  | code =>
    have hbracket := head?_append_eq_iff rest htail (show '[' ≠ '\n' by decide)
    have hstar := head?_append_eq_iff rest htail (show '*' ≠ '\n' by decide)
    simp only [LexState.mode, Mode.move, step, hslash, hbracket, hstar, ne_eq]
    exact Or.inl (by split_ifs <;> rfl)
  | singleQuoted => exact moveQuoted_eq (by decide) rfl (fun _ _ => rfl) _
  | doubleQuoted => exact moveQuoted_eq (by decide) rfl (fun _ _ => rfl) _
  | blockComment =>
    simp only [LexState.mode, Mode.move, step, hslash]
    exact Or.inl (by split_ifs <;> rfl)

/-- A line feed changes nothing outside line comments. -/
theorem run_newline (state : LexState) (text : List Char) :
    state.mode.run ('\n' :: text) = '\n' :: state.mode.run text := by
  cases state with
  | code => exact run_cons_of_keep (by simp [LexState.mode, Mode.move])
  | singleQuoted => exact run_cons_of_blank (by simp [LexState.mode, Mode.move, moveQuoted])
  | doubleQuoted => exact run_cons_of_blank (by simp [LexState.mode, Mode.move, moveQuoted])
  | blockComment => exact run_cons_of_blank (by simp [LexState.mode, Mode.move])

/-- A line comment is blank up to the end of its line, and code goes on there. -/
theorem run_lineComment (htail : AtLineEnd tail) (hline : '\n' ∉ line) :
    Mode.lineComment.run (line ++ tail) = blanked line ++ Mode.code.run tail := by
  induction line with
  | nil =>
    cases tail with
    | nil => rfl
    | cons d tail =>
      obtain rfl := htail d rfl
      exact (run_cons_of_keep rfl).trans (run_newline .code tail).symm
  | cons c line ih =>
    rw [List.mem_cons, not_or] at hline
    have hmove : Mode.lineComment.move c (line ++ tail).head? = .blank .lineComment :=
      if_neg (Ne.symm hline.1)
    rw [List.cons_append, run_cons_of_blank hmove, ih hline.2, blankOf_of_ne (Ne.symm hline.1)]
    rfl

theorem run_escape (htail : AtLineEnd tail) (h : EscapesLineEnd state c rest) :
    state.mode.run (c :: rest ++ tail) = ' ' :: state.mode.run tail := by
  obtain ⟨rfl, rfl, -, hmove⟩ := h
  cases tail with
  | nil => exact run_singleton_of_blankPair (hmove none)
  | cons d tail =>
    obtain rfl := htail d rfl
    rw [run_newline]
    exact run_cons_of_blankPair (hmove _)

theorem isSome_of_blankPair {n : Option Char} (h : step state c n = .blankPair next) :
    n.isSome = true := by
  cases state <;> simp only [step, stepQuoted] at h <;> split_ifs at h <;> simp_all

/-- The automaton masks a line as the lexer of a line does, and goes on in its state. -/
theorem run_append (state : LexState) (htail : AtLineEnd tail) (hline : '\n' ∉ line) :
    state.mode.run (line ++ tail) =
      (maskLine state line).1 ++ (maskLine state line).2.mode.run tail := by
  induction state, line using maskLine.induct with
  | case1 state => rfl
  | case2 state c next rest masked last _ hstep ih =>
    rw [List.mem_cons, not_or] at hline
    rcases move_eq state c rest htail with hmove | ⟨-, rfl, hblank, -⟩
    · rw [hstep] at hmove
      rw [List.cons_append, run_cons_of_keep hmove, ih hline.2, maskLine_cons_of_keep hstep]
      rfl
    · cases hstep.symm.trans hblank
  | case3 state c next rest masked last _ hstep ih =>
    rw [List.mem_cons, not_or] at hline
    rcases move_eq state c rest htail with hmove | hescape
    · rw [hstep] at hmove
      rw [List.cons_append, run_cons_of_blank hmove, ih hline.2, maskLine_cons_of_blank hstep,
        blankOf_of_ne (Ne.symm hline.1)]
      rfl
    · rw [run_escape htail hescape]
      obtain ⟨-, rfl, hblank, -⟩ := hescape
      rw [maskLine_cons_of_blank hblank]
      rfl
  | case4 state c next d rest masked last _ hstep ih =>
    simp only [List.mem_cons, not_or] at hline
    rcases move_eq state c (d :: rest) htail with hmove | ⟨-, hnil, -, -⟩
    · rw [hstep] at hmove
      rw [List.cons_append, List.cons_append, run_cons_of_blankPair hmove, ih hline.2.2,
        maskLine_cons_of_blankPair hstep, blankOf_of_ne (Ne.symm hline.1),
        blankOf_of_ne (Ne.symm hline.2.1)]
      rfl
    · cases hnil
  | case5 state c next hstep => cases isSome_of_blankPair hstep
  | case6 state c rest hstep =>
    rw [List.mem_cons, not_or] at hline
    rcases move_eq state c rest htail with hmove | ⟨-, rfl, hblank, -⟩
    · rw [hstep] at hmove
      rw [List.cons_append, run_cons_of_blank hmove, run_lineComment htail hline.2,
        maskLine_cons_of_blankLine hstep, blankOf_of_ne (Ne.symm hline.1)]
      rfl
    · cases hstep.symm.trans hblank

end Line

/-! ## All lines -/

/-- The automaton masks lines that are put together as the lexer masks each of them. -/
theorem run_join (state : LexState) {lines : List Line} (h : ∀ line ∈ lines, '\n' ∉ line) :
    state.mode.run (join ['\n'] lines) = join ['\n'] (maskFrom state lines) := by
  induction lines generalizing state with
  | nil => rfl
  | cons line lines ih =>
    have hline := h line List.mem_cons_self
    have hlines := fun l hl => h l (List.mem_cons_of_mem line hl)
    cases lines with
    | nil =>
      have hrun := run_append state atLineEnd_nil hline
      rw [List.append_nil, Mode.run, List.append_nil] at hrun
      exact hrun
    | cons next lines =>
      rw [join, List.append_assoc, List.singleton_append,
        run_append state (atLineEnd_newline _) hline, run_newline, ih _ hlines]
      simp [maskFrom, join]

theorem newline_notMem_of_mem_maskFrom (state : LexState) {lines : List Line}
    (h : ∀ line ∈ lines, '\n' ∉ line) : ∀ code ∈ maskFrom state lines, '\n' ∉ code := by
  induction lines generalizing state with
  | nil => simp [maskFrom]
  | cons line lines ih =>
    intro code hcode hnewline
    rcases List.mem_cons.mp hcode with rfl | hcode
    · exact h line List.mem_cons_self
        (mem_of_masks (forall₂_maskLine state line) hnewline (by decide))
    · exact ih _ (fun l hl => h l (List.mem_cons_of_mem line hl)) code hcode hnewline

/-- Masked lines are what the automaton makes of the text of the lines, cut at its line feeds; no
lines stay no lines. -/
theorem mask_eq_run {lines : List Line} (h : ∀ line ∈ lines, '\n' ∉ line) :
    mask lines =
      if lines = [] then [] else splitOn '\n' (Mode.code.run (join ['\n'] lines)) := by
  split_ifs with hnil
  · rw [hnil]
    rfl
  · have hne : mask lines ≠ [] := by
      rw [← List.length_pos_iff, mask, length_maskFrom]
      exact List.length_pos_iff.mpr hnil
    have hrun : Mode.code.run (join ['\n'] lines) = join ['\n'] (mask lines) := run_join .code h
    rw [hrun, splitOn_join hne (newline_notMem_of_mem_maskFrom .code h)]

/-- Lines that end in what begins a comment, ends one or escapes, and go on in a string or a
comment. -/
def brokenTokens : List Line := [
  "$a = 'it\\".toList,
  "' . \"\\\"#\"; /".toList,
  "/ 2; #".toList,
  "#[A] /* x *".toList,
  "/ ' */ $b; // \\".toList]

/-- Each of them is read as in the text. -/
theorem mask_eq_run_brokenTokens : (∀ line ∈ brokenTokens, '\n' ∉ line) ∧
    mask brokenTokens = splitOn '\n' (Mode.code.run (join ['\n'] brokenTokens)) ∧
    mask brokenTokens = [
      "$a = '   ".toList,
      "' . \"   \"; /".toList,
      "/ 2;  ".toList,
      "#[A]       ".toList,
      "       $b;     ".toList] := by
  have hnewline : ∀ line ∈ brokenTokens, '\n' ∉ line := by decide
  exact ⟨hnewline, (mask_eq_run hnewline).trans (if_neg (by decide)), by decide⟩

/-- No lines make an empty text, which is one line. -/
theorem not_mask_eq_run : ¬ ∀ lines : List Line, (∀ line ∈ lines, '\n' ∉ line) →
    mask lines = splitOn '\n' (Mode.code.run (join ['\n'] lines)) := by
  intro h
  have hnil : mask [] = splitOn '\n' (Mode.code.run (join ['\n'] [])) := h [] (by simp)
  revert hnil
  decide

end PluginWorkshop.Php
