import PluginWorkshop.Proofs.Php.Bindings

/-!
# Taking the assignment off the plugin object

An assignment to a variable is found in the masked copy of a line, with comments in front of it or
within it, but is only taken off where it is written without (`unbinds_iff_bindsAsWritten`). The edit
is reported all the same (`not_unbinds_of_plan`).
-/

namespace PluginWorkshop.Php

open Text

variable {name line code a : Line} {state : LexState} {c : Char}

/-- The line starts in code, and the assignment stands on it as it is written. -/
def BindsAsWritten (name : Line) (lines : List Line) (index : Nat) : Prop :=
  stateBefore lines index = .code ∧
    ∃ line, lines[index]? = some line ∧ (boundValue? name line).isSome = true

/-- The line is another one, and its code no longer assigns a new object to the variable. -/
def Unbinds (name : Line) (before after : List Line) (index : Nat) : Prop :=
  ∃ old line, before[index]? = some old ∧ after[index]? = some line ∧ line ≠ old ∧
    bindsNew name (maskLine (stateBefore after index) line).1 = false

/-! ## A line without its assignment -/

/-- A line with an assignment is what is in front of the value, and the value. -/
theorem exists_append_of_boundValue? {value : Line} (hname : isIdentifier name = true)
    (h : boundValue? name line = some value) : ∃ x b, (∀ c ∈ x, isBlank c = true) ∧
      (∀ c ∈ b, isBlank c = true) ∧
      line = indentation line ++ '$' :: name ++ x ++ '=' :: b ++ value ∧
      ∀ c ∈ indentation line ++ '$' :: name ++ x ++ '=' :: b, isInert c = true := by
  obtain ⟨x, b, hx, hb, hline⟩ := boundValue?_eq_some h
  refine ⟨x, b, hx, hb, by simpa using hline, fun c hc => ?_⟩
  simp only [List.mem_append, List.mem_cons] at hc
  rcases hc with ((hc | rfl | hc) | hc) | rfl | hc
  · exact isInert_of_mem_indentation hc
  · rfl
  · exact isInert_of_mem_identifier hname hc
  · exact isInert_of_isBlank (hx c hc)
  · rfl
  · exact isInert_of_isBlank (hb c hc)

theorem unbindLine_of_boundValue? {value : Line} (h : boundValue? name line = some value) :
    unbindLine name line = indentation line ++ value := by
  rw [unbindLine, h]

theorem length_unbindLine_lt (h : (boundValue? name line).isSome = true) :
    (unbindLine name line).length < line.length := by
  obtain ⟨value, hvalue⟩ := Option.isSome_iff_exists.mp h
  obtain ⟨x, b, -, -, hline⟩ := boundValue?_eq_some hvalue
  have hlength := congrArg List.length hline
  rw [unbindLine_of_boundValue? hvalue]
  simp only [List.length_append, List.length_cons] at hlength ⊢
  omega

/-- Without the assignment the code of the line starts with the new object. -/
theorem head?_maskLine_unbindLine (hname : isIdentifier name = true)
    (hbinds : bindsNew name (maskLine .code line).1 = true)
    (hwritten : (boundValue? name line).isSome = true) :
    (dropBlanks (maskLine .code (unbindLine name line)).1).head? = some 'n' := by
  obtain ⟨value, hvalue⟩ := Option.isSome_iff_exists.mp hwritten
  obtain ⟨x, b, hx, hb, hline, hinert⟩ := exists_append_of_boundValue? hname hvalue
  rw [unbindLine_of_boundValue? hvalue,
    maskLine_inert_append (Or.inl rfl) fun _ => isInert_of_mem_indentation, maskInert_code,
    dropBlanks_append fun _ => isBlank_of_mem_indentation]
  rw [hline, maskLine_inert_append (Or.inl rfl) hinert, maskInert_code, bindsNew, List.append_assoc,
    List.cons_append, boundValue?_append (fun _ => isSpaceOrTab_of_mem_indentation) hx,
    dropBlanks_append hb, Option.bind_some] at hbinds
  obtain ⟨_, hoperand⟩ := Option.isSome_iff_exists.mp hbinds
  exact head?_of_operandOfNew? hoperand

/-- Taking the assignment off a line that starts in a comment takes it off the comment. -/
theorem bindsNew_maskLine_unbindLine_comment (hname : isIdentifier name = true) :
    bindsNew name (maskLine .blockComment (unbindLine name line)).1 =
      bindsNew name (maskLine .blockComment line).1 := by
  cases hvalue : boundValue? name line with
  | none => rw [unbindLine, hvalue]
  | some value =>
    obtain ⟨x, b, -, -, hline, hinert⟩ := exists_append_of_boundValue? hname hvalue
    conv_rhs => rw [hline, maskLine_inert_append (Or.inr rfl) hinert]
    rw [unbindLine_of_boundValue? hvalue,
      maskLine_inert_append (Or.inr rfl) fun _ => isInert_of_mem_indentation]
    simp only [maskInert_blockComment, bindsNew_blanked_append]

/-! ## A carriage return at the end -/

/-- At the end of a line the lexer does as before a carriage return, but that a backslash in a string
is followed by a character there. -/
theorem step_return (state : LexState) (c : Char) :
    step state c (some '\r') = step state c none ∨ ∃ inside,
      step state c none = .blank inside ∧ step state c (some '\r') = .blankPair inside := by
  have hquoted : ∀ (delimiter : Char) (inside : LexState), delimiter ≠ '\\' →
      stepQuoted delimiter inside c (some '\r') = stepQuoted delimiter inside c none ∨
        ∃ inside', stepQuoted delimiter inside c none = .blank inside' ∧
          stepQuoted delimiter inside c (some '\r') = .blankPair inside' := by
    intro delimiter inside hdelimiter
    by_cases hc : c = '\\'
    · exact Or.inr ⟨inside, by simp [stepQuoted, hc, hdelimiter.symm], by simp [stepQuoted, hc]⟩
    · exact Or.inl (by simp [stepQuoted, hc])
  cases state with
  | code => exact Or.inl (by simp [step])
  | blockComment => exact Or.inl (by simp [step])
  | singleQuoted => exact hquoted _ _ (by decide)
  | doubleQuoted => exact hquoted _ _ (by decide)

theorem step_append_return (state : LexState) (c : Char) (rest : Line) :
    step state c (rest ++ ['\r']).head? = step state c rest.head? ∨
      rest = [] ∧ ∃ inside, step state c none = .blank inside ∧
        step state c (some '\r') = .blankPair inside := by
  cases rest with
  | nil => exact (step_return state c).imp id fun h => ⟨rfl, h⟩
  | cons d rest => exact Or.inl rfl

/-- A carriage return at the end of a line changes nothing in front of it. -/
theorem exists_maskLine_return (state : LexState) (line : Line) :
    ∃ d, isBlank d = true ∧ (maskLine state (line ++ ['\r'])).1 = (maskLine state line).1 ++ [d] := by
  induction state, line using maskLine.induct with
  | case1 state => cases state <;> exact ⟨_, by decide, rfl⟩
  | case2 state c next rest masked last _ haction ih =>
    obtain ⟨d, hblank, hd⟩ := ih
    rcases step_append_return state c rest with hsame | ⟨rfl, inside, hnone, -⟩
    · rw [List.cons_append, maskLine_cons_of_keep (hsame.trans haction),
        maskLine_cons_of_keep haction, hd]
      exact ⟨d, hblank, rfl⟩
    · cases hnone.symm.trans haction
  | case3 state c next rest masked last _ haction ih =>
    obtain ⟨d, hblank, hd⟩ := ih
    rcases step_append_return state c rest with hsame | ⟨rfl, inside, hnone, hpair⟩
    · rw [List.cons_append, maskLine_cons_of_blank (hsame.trans haction),
        maskLine_cons_of_blank haction, hd]
      exact ⟨d, hblank, rfl⟩
    · rw [List.cons_append, List.nil_append, maskLine_cons_of_blankPair hpair,
        maskLine_cons_of_blank haction]
      exact ⟨' ', rfl, rfl⟩
  | case4 state c next e rest masked last _ haction ih =>
    obtain ⟨d, hblank, hd⟩ := ih
    rw [List.cons_append, List.cons_append, maskLine_cons_of_blankPair haction,
      maskLine_cons_of_blankPair haction, hd]
    exact ⟨d, hblank, rfl⟩
  | case5 state c next haction =>
    rcases step_append_return state c [] with hsame | ⟨-, inside, hnone, -⟩
    · rw [List.cons_append, List.nil_append, maskLine_cons_of_blankPair (hsame.trans haction),
        maskLine_singleton_of_blankPair haction]
      exact ⟨' ', rfl, rfl⟩
    · cases hnone.symm.trans haction
  | case6 state c rest haction =>
    rcases step_append_return state c rest with hsame | ⟨rfl, inside, hnone, -⟩
    · rw [List.cons_append, maskLine_cons_of_blankLine (hsame.trans haction),
        maskLine_cons_of_blankLine haction]
      exact ⟨' ', rfl, by simp [blanked]⟩
    · cases hnone.symm.trans haction

theorem head?_dropBlanks_append {b : Line} (h : (dropBlanks a).head? = some c) :
    (dropBlanks (a ++ b)).head? = some c := by
  rw [dropBlanks] at h
  have hne : a.dropWhile isBlank ≠ [] := by
    intro hnil
    rw [hnil] at h
    cases h
  rw [dropBlanks, List.dropWhile_append, if_neg (by simpa using hne), List.head?_append, h]
  rfl

/-- A carriage return at the end of a line is at most one more blank at the end of its code. -/
theorem maskLine_dropReturn (state : LexState) (line : Line) :
    dropReturn line = line ∨ ∃ d, line = dropReturn line ++ ['\r'] ∧ isBlank d = true ∧
      (maskLine state line).1 = (maskLine state (dropReturn line)).1 ++ [d] := by
  rw [dropReturn]
  split_ifs with hreturn
  · obtain ⟨front, rfl⟩ := List.getLast?_eq_some_iff.mp hreturn
    obtain ⟨d, hblank, hd⟩ := exists_maskLine_return state front
    rw [List.dropLast_concat]
    exact Or.inr ⟨d, rfl, hblank, hd⟩
  · exact Or.inl rfl

theorem bindsNew_dropReturn_eq_false (h : (dropBlanks (maskLine state line).1).head? = some 'n') :
    bindsNew name (maskLine state (dropReturn line)).1 = false := by
  rw [← Bool.not_eq_true]
  intro hbinds
  have hdollar : (dropBlanks (maskLine state line).1).head? = some '$' := by
    have hhead := head?_of_bindsNew hbinds
    rcases maskLine_dropReturn state line with hsame | ⟨d, -, -, hcode⟩
    · rwa [hsame] at hhead
    · rw [hcode]
      exact head?_dropBlanks_append hhead
  rw [h] at hdollar
  cases hdollar

theorem length_dropReturn_le (line : Line) : (dropReturn line).length ≤ line.length := by
  rw [dropReturn]
  split_ifs <;> simp

/-! ## The edited file -/

section Outcome

variable {path : Path} {text variableName : String} {outcome : PatchOutcome} {old : Line}
  {index : Nat}

/-- The lines of a file that ends within its last line, with that line or another one replaced. -/
theorem linesOf_replace_of_not_trailing {source : SourceText} {front : List Line} {last : Line}
    (htrailing : source.trailingNewline = false) (hlines : source.lines = front ++ [last])
    (hnewlines : ∀ l ∈ source.lines, '\n' ∉ l)
    (hfront : source.lineEnding = .lf → ∀ l ∈ front, l.getLast? ≠ some '\r')
    (hold : source.lines[index]? = some old) (hnewline : '\n' ∉ line) (hne : line ≠ [])
    (hlast : line.getLast? = old.getLast?) :
    let after := SourceText.linesOf (source.replace index line).renderChars
    after.take index = source.lines.take index ∧
      (after[index]? = some line ∨ after[index]? = some (dropReturn line)) := by
  have hmem : ∀ l ∈ (source.replace index line).lines, '\n' ∉ l := by
    intro l hl
    rcases List.mem_or_eq_of_mem_set hl with hl | rfl
    · exact hnewlines l hl
    · exact hnewline
  have hlt := (List.getElem?_eq_some_iff.mp hold).1
  rw [hlines] at hold hlt ⊢
  rcases Nat.lt_or_ge index front.length with hindex | hindex
  · have hset : (source.replace index line).lines = front.set index line ++ [last] :=
      (congrArg (·.set index line) hlines).trans (List.set_append_left _ _ hindex)
    rw [List.getElem?_append_left hindex] at hold
    have hafter := SourceText.linesOf_renderChars_concat (s := source.replace index line) htrailing
      hset hmem fun l hl => LineEnding.dropReturn_append_return? fun hending => by
        rcases List.mem_or_eq_of_mem_set hl with hl | rfl
        · exact hfront hending l hl
        · exact hlast ▸ hfront hending old (List.mem_of_getElem? hold)
    dsimp only
    rw [hafter, List.take_append_of_le_length (by simpa using hindex.le),
      List.take_set_of_le (Nat.le_refl _), List.take_append_of_le_length hindex.le,
      List.getElem?_append_left (by simpa using hindex), List.getElem?_set_self hindex]
    exact ⟨rfl, Or.inl rfl⟩
  · obtain rfl : index = front.length := by
      rw [List.length_append, List.length_singleton] at hlt
      omega
    have hset : (source.replace front.length line).lines = front ++ [line] :=
      (congrArg (·.set front.length line) hlines).trans (set_length_append front [] last line)
    have hafter := SourceText.linesOf_renderChars_concat (s := source.replace front.length line)
      htrailing hset hmem fun l hl =>
        LineEnding.dropReturn_append_return? fun hending => hfront hending l hl
    dsimp only
    rw [hafter, if_neg hne]
    exact ⟨by rw [List.take_left, List.take_left], Or.inr (by simp)⟩

/-- The lines of a text with a replaced line. In a text that ends in a carriage return the last line
may lose one more. -/
theorem lines_replaceOutcome (hold : (SourceText.parse text).lines[index]? = some old)
    (hnewline : '\n' ∉ old → '\n' ∉ line) (hne : line ≠ [])
    (hlast : line.getLast? = old.getLast?) :
    let after :=
      (SourceText.parse (replaceOutcome (SourceText.parse text) index line).content).lines
    after.take index = (SourceText.parse text).lines.take index ∧
      (after[index]? = some line ∨
        text.toList.getLast? = some '\r' ∧ after[index]? = some (dropReturn line)) := by
  rw [replaceOutcome, SourceText.lines_parse_render]
  have hmem := List.mem_of_getElem? hold
  rcases Decidable.em (text.toList.getLast? = some '\r') with hreturn | hreturn
  · obtain ⟨front, last, hlines, htrailing, hnewlines, hfront⟩ :=
      SourceText.exists_lines_of_return hreturn
    obtain ⟨htake, hget⟩ := linesOf_replace_of_not_trailing htrailing hlines hnewlines hfront hold
      (hnewline (hnewlines old hmem)) hne hlast
    exact ⟨htake, hget.imp id fun h => ⟨hreturn, h⟩⟩
  · have hs := sound_of_getElem? hreturn hold
    rw [SourceText.linesOf_renderChars
      (hs.replace hold (hnewline (hs.newline_notMem old hmem)) hne hlast)]
    refine ⟨List.take_set_of_le (Nat.le_refl _), Or.inl ?_⟩
    exact List.getElem?_set_self (List.getElem?_eq_some_iff.mp hold).1

section Edited

variable {before after : List Line}

theorem stateBefore_of_take_eq (h : after.take index = before.take index) :
    stateBefore after index = stateBefore before index := by
  rw [stateBefore_eq, stateBefore_eq, h]

theorem unbinds_of_written (hname : isIdentifier name = true)
    (hcode : stateBefore before index = .code) (hold : before[index]? = some old)
    (hbinds : bindsNew name (maskLine .code old).1 = true)
    (hwritten : (boundValue? name old).isSome = true)
    (htake : after.take index = before.take index)
    (hget : after[index]? = some (unbindLine name old) ∨
      after[index]? = some (dropReturn (unbindLine name old))) :
    Unbinds name before after index := by
  have hstate := (stateBefore_of_take_eq htake).trans hcode
  have hhead := head?_maskLine_unbindLine hname hbinds hwritten
  have hlength := length_unbindLine_lt hwritten
  rcases hget with hget | hget
  · refine ⟨old, _, hold, hget, fun heq => ?_, ?_⟩
    · rw [heq] at hlength
      exact Nat.lt_irrefl _ hlength
    · rw [hstate]
      exact bindsNew_eq_false_of_head? hhead
  · refine ⟨old, _, hold, hget, fun heq => ?_, ?_⟩
    · have hle := length_dropReturn_le (unbindLine name old)
      rw [heq] at hle
      omega
    · rw [hstate]
      exact bindsNew_dropReturn_eq_false hhead

/-- In a comment the assignment stays in the code of the line, and where it is not written the line
stays as it is. -/
theorem bindsAsWritten_of_unbinds (hname : isIdentifier name = true)
    (hold : before[index]? = some old)
    (hbinds : bindsNew name (maskLine (stateBefore before index) old).1 = true)
    (htake : after.take index = before.take index)
    (hget : after[index]? = some (unbindLine name old)) (h : Unbinds name before after index) :
    BindsAsWritten name before index := by
  obtain ⟨_, _, hold', hnew, hchanged, hgone⟩ := h
  obtain rfl := Option.some.inj (hold.symm.trans hold')
  obtain rfl := Option.some.inj (hget.symm.trans hnew)
  have hcode : stateBefore before index = .code := by
    refine (state_of_bindsNew hbinds).resolve_right fun hcomment => ?_
    rw [hcomment] at hbinds
    rw [stateBefore_of_take_eq htake, hcomment, bindsNew_maskLine_unbindLine_comment hname,
      hbinds] at hgone
    cases hgone
  refine ⟨hcode, old, hold, ?_⟩
  rw [← Option.ne_none_iff_isSome]
  intro hnone
  rw [unbindLine, hnone] at hchanged
  exact hchanged rfl

end Edited

/-- Taking an assignment off replaces the line on which it is found by another one, whose code does
not assign a new object any more, if the line starts in code and the assignment is written on it
without comments; and, but for what a carriage return at the end of the text changes, only then. -/
theorem unbinds_iff_bindsAsWritten (hname : isIdentifier variableName.toList = true)
    (hplan : plan path text (.unbindInstance variableName) = .ok outcome) :
    ∃ index, findBinding? (SourceText.parse text).lines variableName = some index ∧
      (BindsAsWritten variableName.toList (SourceText.parse text).lines index →
        Unbinds variableName.toList (SourceText.parse text).lines
          (SourceText.parse outcome.content).lines index) ∧
      (text.toList.getLast? ≠ some '\r' →
        Unbinds variableName.toList (SourceText.parse text).lines
          (SourceText.parse outcome.content).lines index →
        BindsAsWritten variableName.toList (SourceText.parse text).lines index) := by
  obtain ⟨index, line, hfind, hline, rfl⟩ := plan_unbindInstance_eq_ok.mp hplan
  obtain ⟨-, hbinds⟩ := (selects_rows_of_getElem? hline).mp (findBinding?_eq_some.mp hfind).1
  have hmasks := forall₂_maskLine (stateBefore (SourceText.parse text).lines index) line
  have hlast := getLast?_unbindLine (notMem_of_isIdentifier (by decide) hname) hmasks hbinds
  have hne := ne_nil_of_getLast?_eq hlast
    (List.ne_nil_of_mem (mem_of_masks hmasks (mem_of_bindsNew hbinds) (by decide)))
  obtain ⟨htake, hget⟩ := lines_replaceOutcome hline (fun h => mt mem_unbindLine h) hne hlast
  refine ⟨index, hfind, ?_, fun hreturn hunbinds => ?_⟩
  · rintro ⟨hcode, _, hline', hwritten⟩
    obtain rfl := Option.some.inj (hline.symm.trans hline')
    rw [hcode] at hbinds
    exact unbinds_of_written hname hcode hline hbinds hwritten htake (hget.imp id And.right)
  · exact bindsAsWritten_of_unbinds hname hline hbinds htake
      (hget.resolve_right fun h => hreturn h.1) hunbinds

/-- A file that assigns the plugin object. -/
def assignedPlugin : String := "<?php

$plugin = new Plugin();
"

theorem plan_assignedPlugin : plan "p.php" assignedPlugin (.unbindInstance "plugin") = .ok
    ⟨barePlugin, [⟨3, .replaced, "new Plugin();"⟩]⟩ := by
  decide

/-- It is assigned no longer. -/
theorem unbinds_iff_bindsAsWritten_assignedPlugin : ∃ outcome,
    plan "p.php" assignedPlugin (.unbindInstance "plugin") = .ok outcome ∧
    findBinding? (SourceText.parse assignedPlugin).lines "plugin" = some 2 ∧
    BindsAsWritten "plugin".toList (SourceText.parse assignedPlugin).lines 2 ∧
    Unbinds "plugin".toList (SourceText.parse assignedPlugin).lines
      (SourceText.parse outcome.content).lines 2 := by
  have hfind : findBinding? (SourceText.parse assignedPlugin).lines "plugin" = some 2 := by
    decide
  have hget : (SourceText.parse assignedPlugin).lines[2]? =
      some "$plugin = new Plugin();".toList := by
    decide
  have hwritten : BindsAsWritten "plugin".toList (SourceText.parse assignedPlugin).lines 2 :=
    ⟨by decide, _, hget, by decide⟩
  obtain ⟨index, hindex, hunbinds, -⟩ :=
    unbinds_iff_bindsAsWritten (by decide) plan_assignedPlugin
  obtain rfl : index = 2 := Option.some.inj (hindex.symm.trans hfind)
  exact ⟨_, plan_assignedPlugin, hfind, hwritten, hunbinds hwritten⟩

/-- A file with an assignment behind a comment. -/
def commentedBinding : String := "<?php
/* main */ $plugin = new Plugin();
"

/-- The line is reported as replaced, and is as it was. -/
theorem plan_commentedBinding : plan "p.php" commentedBinding (.unbindInstance "plugin") = .ok
    ⟨commentedBinding, [⟨2, .replaced, "/* main */ $plugin = new Plugin();"⟩]⟩ := by
  decide

/-- An edit that takes an assignment off may leave it where it is. -/
theorem not_unbinds_of_plan : ¬ ∀ (path : Path) (text variableName : String)
    (outcome : PatchOutcome), isIdentifier variableName.toList = true →
    plan path text (.unbindInstance variableName) = .ok outcome →
    ∀ index, findBinding? (SourceText.parse text).lines variableName = some index →
      Unbinds variableName.toList (SourceText.parse text).lines
        (SourceText.parse outcome.content).lines index := by
  intro h
  have hfind : findBinding? (SourceText.parse commentedBinding).lines "plugin" = some 1 := by
    decide
  obtain ⟨old, line, hold, hline, hne, -⟩ :=
    h "p.php" commentedBinding "plugin" _ (by decide) plan_commentedBinding 1 hfind
  exact hne (Option.some.inj (hline.symm.trans hold))

end Outcome

end PluginWorkshop.Php
