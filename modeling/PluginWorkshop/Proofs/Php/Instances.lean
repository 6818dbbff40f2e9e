import PluginWorkshop.Php.Bootstrap
import PluginWorkshop.Proofs.Php.TopLevel
import PluginWorkshop.Proofs.Text.Splitting

/-!
# The line of an instance

The line on which the plugin object is created is found in the masked copy and edited as it is
written. Since the masked copy holds nothing but what is written (`exists_line_of_locate`), something
stands behind the place of the edit, and the edited line ends as the one before
(`getLast?_bindLine`, `getLast?_unbindLine`).
-/

namespace PluginWorkshop.Php

open Text

/-! ## Lines by a test -/

/-- The line that is found bears code that satisfies the test. -/
theorem exists_line_of_locate {label : String} {test : Line → Bool} {lines : List Line} {index : Nat}
    (h : (Anchor.marker label test true).locate lines = .found index) :
    ∃ line code, lines[index]? = some line ∧ List.Forall₂ Masks code line ∧ test code = true := by
  obtain ⟨line, hline, -, htest⟩ := selects_rows.mp (firstMatch_eq_found.mp h).1
  exact ⟨line, _, hline, forall₂_maskLine _ line, htest⟩

/-! ## New objects -/

section

variable {name line code value : Line}

theorem isBlank_of_mem_indentation {c : Char} (h : c ∈ indentation line) : isBlank c = true := by
  have hspace := isSpaceOrTab_of_mem_indentation h
  rw [isSpaceOrTab, Bool.or_eq_true, beq_iff_eq, beq_iff_eq] at hspace
  rcases hspace with rfl | rfl <;> decide

theorem head?_of_operandOfNew? {s operand : Line} (h : operandOfNew? s = some operand) :
    s.head? = some 'n' := by
  rw [operandOfNew?] at h
  split at h
  · next hstarts =>
    rw [afterPrefix?_eq_some.mp hstarts]
    rfl
  · cases h

theorem head?_of_instantiates (h : instantiates code = true) :
    (dropBlanks code).head? = some 'n' := by
  obtain ⟨_, hclass⟩ := Option.isSome_iff_exists.mp h
  obtain ⟨_, hoperand, -⟩ := Option.bind_eq_some_iff.mp hclass
  exact head?_of_operandOfNew? hoperand

theorem mem_of_instantiates (h : instantiates code = true) : 'n' ∈ code :=
  (dropBlanks_sublist code).subset (List.mem_of_mem_head? (head?_of_instantiates h))

/-- A value stands behind an equals sign with blanks around it. -/
theorem assigned?_eq_some {s : Line} (h : assigned? s = some value) :
    ∃ a b, (∀ c ∈ a, isBlank c = true) ∧ (∀ c ∈ b, isBlank c = true) ∧
      s = a ++ '=' :: (b ++ value) := by
  rw [assigned?] at h
  split at h
  · next rest hrest =>
    obtain rfl := Option.some.inj h
    refine ⟨s.takeWhile isBlank, rest.takeWhile isBlank, fun _ => List.mem_takeWhile_imp,
      fun _ => List.mem_takeWhile_imp, ?_⟩
    rw [dropBlanks, List.takeWhile_append_dropWhile, ← hrest, dropBlanks,
      List.takeWhile_append_dropWhile]
  · cases h

/-- A line with an assignment, piece by piece. -/
theorem boundValue?_eq_some (h : boundValue? name line = some value) :
    ∃ a b, (∀ c ∈ a, isBlank c = true) ∧ (∀ c ∈ b, isBlank c = true) ∧
      line = indentation line ++ '$' :: name ++ a ++ '=' :: (b ++ value) := by
  obtain ⟨rest, hrest, hvalue⟩ := Option.bind_eq_some_iff.mp h
  obtain ⟨a, b, ha, hb, rfl⟩ := assigned?_eq_some hvalue
  refine ⟨a, b, ha, hb, ?_⟩
  conv_lhs => rw [← indentation_append_afterIndentation line, afterPrefix?_eq_some.mp hrest]
  simp

/-- A new object that is assigned stands behind an equals sign. -/
theorem exists_append_of_bindsNew (h : bindsNew name code = true) :
    ∃ a b, code = a ++ '=' :: b ∧ 'n' ∈ b := by
  obtain ⟨_, hoperand⟩ := Option.isSome_iff_exists.mp h
  obtain ⟨created, hcreated, hnew⟩ := Option.bind_eq_some_iff.mp hoperand
  obtain ⟨_, b, -, -, hcode⟩ := boundValue?_eq_some hcreated
  exact ⟨_, _, hcode, List.mem_append_right b (List.mem_of_mem_head? (head?_of_operandOfNew? hnew))⟩

theorem head?_of_bindsNew (h : bindsNew name code = true) :
    (dropBlanks code).head? = some '$' := by
  obtain ⟨_, hoperand⟩ := Option.isSome_iff_exists.mp h
  obtain ⟨_, hvalue, -⟩ := Option.bind_eq_some_iff.mp hoperand
  obtain ⟨x, b, -, -, hcode⟩ := boundValue?_eq_some hvalue
  rw [hcode, List.append_assoc, List.append_assoc,
    dropBlanks_append fun _ => isBlank_of_mem_indentation]
  rfl

theorem mem_of_bindsNew (h : bindsNew name code = true) : 'n' ∈ code := by
  obtain ⟨a, b, rfl, hmem⟩ := exists_append_of_bindsNew h
  simp [hmem]

/-- Where a new object is assigned in code, something is assigned on the line. -/
theorem value_ne_nil (hname : '=' ∉ name) (hmasks : List.Forall₂ Masks code line)
    (hbinds : bindsNew name code = true) (hvalue : boundValue? name line = some value) :
    value ≠ [] := by
  rintro rfl
  obtain ⟨a, b, rfl, hnew⟩ := exists_append_of_bindsNew hbinds
  obtain ⟨front, behind, hsplit, hbehind⟩ := exists_append_of_masks hmasks (by decide)
  obtain ⟨a', b', ha', hb', hline⟩ := boundValue?_eq_some hvalue
  -- The line has one equals sign, so that the object stands behind the same one.
  have hfront : '=' ∉ indentation line ++ '$' :: name ++ a' := by
    simp only [List.mem_append, List.mem_cons, not_or]
    refine ⟨⟨fun hmem => ?_, by decide, hname⟩, fun hmem => ?_⟩
    · exact absurd (List.mem_takeWhile_imp hmem) (by decide)
    · exact absurd (ha' _ hmem) (by decide)
  have hblank : '=' ∉ b' ++ [] := by
    rw [List.append_nil]
    exact fun hmem => absurd (hb' _ hmem) (by decide)
  obtain ⟨-, -, rfl⟩ := (List.append_cons_inj_of_notMem hfront hblank).mp (hline.symm.trans hsplit)
  have hmem : 'n' ∈ b' ++ [] :=
    mem_of_masks hbehind hnew (by decide)
  rw [List.append_nil] at hmem
  exact absurd (hb' _ hmem) (by decide)

/-! ## The edited line -/

theorem afterIndentation_ne_nil (h : 'n' ∈ line) : afterIndentation line ≠ [] := by
  intro hnil
  rw [← indentation_append_afterIndentation line, hnil, List.append_nil] at h
  exact absurd (List.mem_takeWhile_imp h) (by decide)

theorem ne_nil_of_getLast?_eq {s t : Line} (h : s.getLast? = t.getLast?) (ht : t ≠ []) : s ≠ [] := by
  rintro rfl
  exact ht (List.getLast?_eq_none_iff.mp h.symm)

theorem getLast?_bindLine (name : Line) (h : 'n' ∈ line) :
    (bindLine name line).getLast? = line.getLast? := by
  have hne := afterIndentation_ne_nil h
  conv_rhs => rw [← indentation_append_afterIndentation line]
  rw [bindLine, List.getLast?_append_of_ne_nil _ hne, List.getLast?_append_of_ne_nil _ hne]

theorem getLast?_unbindLine (hname : '=' ∉ name) (hmasks : List.Forall₂ Masks code line)
    (hbinds : bindsNew name code = true) : (unbindLine name line).getLast? = line.getLast? := by
  rw [unbindLine]
  cases hvalue : boundValue? name line with
  | none => rfl
  | some value =>
    have hne := value_ne_nil hname hmasks hbinds hvalue
    obtain ⟨a, b, -, -, hline⟩ := boundValue?_eq_some hvalue
    have hends : line = (indentation line ++ '$' :: name ++ a ++ '=' :: b) ++ value :=
      hline.trans (List.append_assoc _ ('=' :: b) value).symm
    conv_rhs => rw [hends, List.getLast?_append_of_ne_nil _ hne]
    exact List.getLast?_append_of_ne_nil _ hne

/-- Nothing comes in but the variable, its assignment and what was on the line. -/
theorem mem_bindLine {c : Char} (h : c ∈ bindLine name line) :
    c ∈ '$' :: name ++ " = ".toList ∨ c ∈ line := by
  have hline : c ∈ line ↔ c ∈ indentation line ∨ c ∈ afterIndentation line := by
    rw [← List.mem_append, indentation_append_afterIndentation]
  rw [bindLine, List.mem_append, List.mem_append, List.mem_append] at h
  rw [List.mem_append, hline]
  tauto

theorem mem_unbindLine {c : Char} (h : c ∈ unbindLine name line) : c ∈ line := by
  rw [unbindLine] at h
  cases hvalue : boundValue? name line with
  | none => simpa [hvalue] using h
  | some value =>
    obtain ⟨a, b, -, -, hline⟩ := boundValue?_eq_some hvalue
    rw [hvalue] at h
    rw [hline]
    rcases List.mem_append.mp h with h | h <;> simp [h]

end

end PluginWorkshop.Php
