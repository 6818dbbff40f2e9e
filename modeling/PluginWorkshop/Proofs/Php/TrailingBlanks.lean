import PluginWorkshop.Proofs.Php.BoundLines
import PluginWorkshop.Proofs.Php.CreatedClasses
import PluginWorkshop.Proofs.Php.Unbinding

/-!
# Blanks at the end of a line

A blank more at the end of a line changes nothing of what a wiring reads of the line
(`alike_concat`), nor whether the line creates an object (`instantiates_concat`). But a line may
assign an object because of it: behind `new` one blank is read (`bindsNew_append`). A carriage
return that is read as part of the last line is such a blank (`alike_dropReturn`).
-/

namespace PluginWorkshop.Php

open Text

variable {name line s t m marker : Line} {c d : Char} {state : LexState}

/-! ## Trimming -/

theorem indentation_concat (hc : isSpaceOrTab c = false) (t : Line) :
    indentation (t ++ [c]) = indentation t ∧
      afterIndentation (t ++ [c]) = afterIndentation t ++ [c] := by
  have hindent : indentation (t ++ [c]) = indentation t := by
    rw [indentation, List.takeWhile_append, List.takeWhile_cons_of_neg (by simp [hc]),
      List.append_nil]
    split_ifs with hall
    · exact (List.takeWhile_prefix _).eq_of_length hall |>.symm
    · rfl
  refine ⟨hindent, ?_⟩
  have hsplit := indentation_append_afterIndentation (t ++ [c])
  conv_rhs at hsplit => rw [← indentation_append_afterIndentation t, List.append_assoc]
  rw [hindent] at hsplit
  exact List.append_cancel_left hsplit

theorem isAllBlank_concat (hd : isBlank d = true) (t : Line) :
    isAllBlank (t ++ [d]) = isAllBlank t := by
  rw [isAllBlank, isAllBlank, List.all_append, List.all_cons, hd, List.all_nil, Bool.and_self,
    Bool.and_true]

theorem dropBlanks_concat (hd : isBlank d = true) (t : Line) :
    dropBlanks (t ++ [d]) = if dropBlanks t = [] then [] else dropBlanks t ++ [d] := by
  rw [dropBlanks, List.dropWhile_append, List.dropWhile_cons_of_pos hd, dropBlanks]
  simp only [List.isEmpty_iff, List.dropWhile_nil]

theorem trim_concat (hd : isBlank d = true) (t : Line) : trim (t ++ [d]) = trim t := by
  rw [trim, trim, dropBlanks_concat hd]
  split_ifs with hnil
  · rw [hnil]
  · rw [dropBlanksRight, dropBlanksRight, List.reverse_concat, List.dropWhile_cons_of_pos hd]

/-! ## Patterns -/

theorem prefix_concat_iff_of_getLast? (hd : marker.getLast? ≠ some d) :
    marker <+: t ++ [d] ↔ marker <+: t := by
  rw [List.prefix_concat_iff, or_iff_right]
  rintro rfl
  exact hd (by simp)

/-- A pattern that ends otherwise is found where it was found. -/
theorem suffixFrom?_concat (hne : marker ≠ []) (hd : marker.getLast? ≠ some d) (t : Line) :
    suffixFrom? marker (t ++ [d]) = (suffixFrom? marker t).map (· ++ [d]) := by
  have hstarts : ∀ t : Line, marker.isPrefixOf (t ++ [d]) = marker.isPrefixOf t := fun t => by
    rw [Bool.eq_iff_iff, List.isPrefixOf_iff_prefix, List.isPrefixOf_iff_prefix,
      prefix_concat_iff_of_getLast? hd]
  have hempty : marker.isEmpty = false := List.isEmpty_eq_false_iff.mpr hne
  induction t with
  | nil =>
    have hnil : marker.isPrefixOf [d] = false := by
      rw [← List.nil_append [d], hstarts]
      cases marker with
      | nil => exact absurd rfl hne
      | cons => rfl
    simp [suffixFrom?, hnil, hempty]
  | cons c t ih =>
    rw [List.cons_append, suffixFrom?, suffixFrom?, ← List.cons_append, hstarts]
    split_ifs
    · rfl
    · exact ih

theorem containsText_concat (hne : marker ≠ []) (hd : marker.getLast? ≠ some d) (t : Line) :
    containsText marker (t ++ [d]) = containsText marker t := by
  rw [containsText, containsText, suffixFrom?_concat hne hd, Option.isSome_map]

theorem opensComment_concat (hd : isBlank d = true) (t : Line) :
    opensComment (t ++ [d]) = opensComment t := by
  have hstarts : ∀ marker : Line, marker ≠ [] → marker.getLast?.all (!isBlank ·) = true →
      marker.isPrefixOf (dropBlanks (t ++ [d])) = marker.isPrefixOf (dropBlanks t) := by
    intro marker hne hend
    have hd' : marker.getLast? ≠ some d := by
      intro hlast
      simp [hlast, hd] at hend
    rw [dropBlanks_concat hd]
    split_ifs with hnil
    · rw [hnil]
    · rw [Bool.eq_iff_iff, List.isPrefixOf_iff_prefix, List.isPrefixOf_iff_prefix,
        prefix_concat_iff_of_getLast? hd']
  rw [opensComment, opensComment]
  rw [hstarts _ (by decide) (by decide), hstarts _ (by decide) (by decide),
    hstarts _ (by decide) (by decide)]

/-- Attributes are read from their end on, and a blank behind them is passed over. -/
theorem scanAttributes_cons_of_isBlank (hd : isBlank d = true) (depth : Nat) (t : Line) :
    scanAttributes depth (d :: t) = scanAttributes depth t := by
  have hopen : d ≠ '[' := by
    rintro rfl
    cases hd
  have hclose : d ≠ ']' := by
    rintro rfl
    cases hd
  cases depth with
  | zero => rw [scanAttributes.eq_3 _ _ hclose, if_pos hd]
  | succ depth =>
    exact scanAttributes.eq_7 _ _ _ hclose (fun _ _ h _ => hopen h) (fun _ h => hopen h)
      fun _ _ h => hopen h

/-! ## Rows -/

/-- A row looks the same with a blank at the end of its line and of its code. -/
theorem alike_concat (hc : isBlank c = true) (hspace : isSpaceOrTab c = false)
    (hd : isBlank d = true) : Row.Alike ⟨t ++ [c], m ++ [d]⟩ ⟨t, m⟩ := by
  have hmarker : ∀ {marker : Line} {e : Char}, marker.getLast? = some '(' → isBlank e = true →
      marker.getLast? ≠ some e := by
    intro marker e hlast he heq
    obtain rfl : '(' = e := Option.some.inj (hlast.symm.trans heq)
    cases he
  have hskeleton : ∀ t : Line, skeleton (t ++ [d]) = skeleton t := by
    intro t
    have hnone := (Unread.of_isBlank (p := [d]) (by simpa using hd)).unstructured d (by simp)
    rw [skeleton, List.filter_append, List.filter_cons_of_neg (by simp [hnone]), List.filter_nil,
      List.append_nil]
    rfl
  constructor
  · exact containsText_concat (by decide) (hmarker rfl hd) m
  · rw [suffixFrom?_concat (by decide) (hmarker rfl hd), Option.map_map]
    exact congrArg (Option.map · _) (funext hskeleton)
  · exact hskeleton m
  · exact iff_of_eq (congrArg (· = _) (trim_concat hd m))
  · exact isAllBlank_concat hd m
  · exact isAllBlank_concat hc t
  · exact (indentation_concat hspace t).1
  · rw [trim_concat hc, containsText_concat (by decide) (hmarker rfl hc)]
  · exact fun _ => opensComment_concat hc t
  · rw [trim_concat hd]
  · intro depth
    rw [List.reverse_concat]
    exact scanAttributes_cons_of_isBlank hd depth _

/-! ## New objects -/

theorem isSome_classNameFrom?_concat (hd : isBlank d = true) (separator s : Line) :
    (classNameFrom? separator (s ++ [d])).isSome = (classNameFrom? separator s).isSome := by
  cases s with
  | nil =>
    have hstart : isIdentifierStart d ≠ true := fun h => by
      simp [isBlank_of_isIdentifierStart h] at hd
    rw [List.nil_append, classNameFrom?, if_neg hstart, classNameFrom?]
  | cons c s =>
    rw [List.cons_append, classNameFrom?, classNameFrom?]
    split_ifs <;> rfl

theorem isSome_className?_concat (hd : isBlank d = true) (s : Line) :
    (className? (s ++ [d])).isSome = (className? s).isSome := by
  by_cases hs : s.head? = some '\\'
  · obtain ⟨t, rfl⟩ := List.head?_eq_some_iff.mp hs
    rw [List.cons_append, className?_cons_separator, className?_cons_separator,
      isSome_classNameFrom?_concat hd]
  · have hconcat : (s ++ [d]).head? ≠ some '\\' := by
      cases s with
      | nil =>
        rintro ⟨⟩
        cases hd
      | cons => exact hs
    rw [className?_of_ne hs, className?_of_ne hconcat, isSome_classNameFrom?_concat hd]

theorem operandOfNew?_eq_some {operand : Line} : operandOfNew? s = some operand ↔
    ∃ c rest, s = "new".toList ++ c :: rest ∧ isBlank c = true ∧ dropBlanks rest = operand := by
  rw [operandOfNew?]
  split
  · next c rest hrest =>
    rw [afterPrefix?_eq_some] at hrest
    split_ifs with hc <;> simp [hrest, hc]
  · next hnone =>
    simp only [reduceCtorEq, false_iff]
    rintro ⟨c, rest, hs, -⟩
    exact hnone c rest (afterPrefix?_eq_some.mpr hs)

theorem instantiates_iff : instantiates m = true ↔
    ∃ c rest, dropBlanks m = "new".toList ++ c :: rest ∧ isBlank c = true ∧
      (className? (dropBlanks rest)).isSome = true := by
  rw [instantiates, Option.isSome_bind, Option.any_eq_true]
  simp only [operandOfNew?_eq_some]
  constructor
  · rintro ⟨_, ⟨c, rest, hm, hc, rfl⟩, hclass⟩
    exact ⟨c, rest, hm, hc, hclass⟩
  · rintro ⟨c, rest, hm, hc, hclass⟩
    exact ⟨_, ⟨c, rest, hm, hc, rfl⟩, hclass⟩

/-- The class name is read behind the blanks, so that one more is no class. -/
theorem isSome_className?_dropBlanks_concat (hd : isBlank d = true) (s : Line) :
    (className? (dropBlanks (s ++ [d]))).isSome = (className? (dropBlanks s)).isSome := by
  rw [dropBlanks_concat hd]
  split_ifs with hnil
  · rw [hnil]
  · exact isSome_className?_concat hd _

theorem instantiates_concat (hd : isBlank d = true) (m : Line) :
    instantiates (m ++ [d]) = instantiates m := by
  rw [Bool.eq_iff_iff, instantiates_iff, instantiates_iff, dropBlanks_concat hd]
  split_ifs with hnil
  · rw [hnil]
  constructor
  · rintro ⟨c, rest, hrest, hc, hclass⟩
    rcases List.eq_nil_or_concat rest with rfl | ⟨rest, e, rfl⟩
    · cases hclass
    · rw [List.concat_eq_append, ← List.cons_append, ← List.append_assoc] at hrest
      obtain ⟨hm, heq⟩ := List.append_inj' hrest rfl
      obtain rfl : d = e := (List.cons.inj heq).1
      rw [List.concat_eq_append, isSome_className?_dropBlanks_concat hd] at hclass
      exact ⟨c, rest, hm, hc, hclass⟩
  · rintro ⟨c, rest, hrest, hc, hclass⟩
    refine ⟨c, rest ++ [d], by rw [hrest]; simp, hc, ?_⟩
    rwa [isSome_className?_dropBlanks_concat hd]

/-- An object that is assigned stays so with more behind it. The converse fails: behind `new` a
blank is read. -/
theorem bindsNew_append (h : bindsNew name m = true) (s : Line) :
    bindsNew name (m ++ s) = true := by
  obtain ⟨operand, hoperand⟩ := Option.isSome_iff_exists.mp h
  obtain ⟨value, hvalue, hnew⟩ := Option.bind_eq_some_iff.mp hoperand
  obtain ⟨a, b, ha, hb, hm⟩ := boundValue?_eq_some hvalue
  obtain ⟨c, rest, rfl, hc, -⟩ := operandOfNew?_eq_some.mp hnew
  have hbound : boundValue? name (m ++ s) = some ("new".toList ++ c :: (rest ++ s)) := by
    have hsplit : m ++ s = indentation m ++ '$' :: name ++ a ++
        '=' :: (b ++ ("new".toList ++ c :: (rest ++ s))) := by
      conv_lhs => rw [hm]
      simp
    rw [hsplit, boundValue?_append (fun _ => isSpaceOrTab_of_mem_indentation) ha,
      dropBlanks_append hb]
    rfl
  rw [bindsNew, hbound, Option.bind_some, Option.isSome_iff_exists]
  exact ⟨_, operandOfNew?_eq_some.mpr ⟨c, rest ++ s, rfl, hc, rfl⟩⟩

/-! ## Carriage returns -/

theorem trim_dropReturn (line : Line) : trim (dropReturn line) = trim line := by
  rcases maskLine_dropReturn .code line with heq | ⟨d, hline, -⟩
  · rw [heq]
  · conv_rhs => rw [hline, trim_concat (d := '\r') rfl]

/-- A last line looks the same without the carriage return at its end. -/
theorem alike_dropReturn (state : LexState) (line : Line) :
    Row.Alike ⟨line, (maskLine state line).1⟩
      ⟨dropReturn line, (maskLine state (dropReturn line)).1⟩ := by
  rcases maskLine_dropReturn state line with heq | ⟨d, hline, hblank, hcode⟩
  · rw [heq]
    exact .refl _
  · have halike := alike_concat (t := dropReturn line) (m := (maskLine state (dropReturn line)).1)
      (c := '\r') rfl rfl hblank
    rwa [← hline, ← hcode] at halike

theorem instantiates_maskLine_dropReturn (state : LexState) (line : Line) :
    instantiates (maskLine state (dropReturn line)).1 = instantiates (maskLine state line).1 := by
  rcases maskLine_dropReturn state line with heq | ⟨d, -, hblank, hcode⟩
  · rw [heq]
  · rw [hcode, instantiates_concat hblank]

theorem bindsNew_of_dropReturn (h : bindsNew name (maskLine state (dropReturn line)).1 = true) :
    bindsNew name (maskLine state line).1 = true := by
  rcases maskLine_dropReturn state line with heq | ⟨d, -, -, hcode⟩
  · rwa [heq] at h
  · rw [hcode]
    exact bindsNew_append h [d]

/-- An assignment is put in front of a carriage return as in front of anything else. -/
theorem dropReturn_bindLine (h : 'n' ∈ line) :
    dropReturn (bindLine name line) = bindLine name (dropReturn line) := by
  have hlast := getLast?_bindLine name h
  rw [dropReturn, dropReturn, hlast]
  split_ifs with hreturn
  · obtain ⟨x, rfl⟩ := List.getLast?_eq_some_iff.mp hreturn
    obtain ⟨hindent, hafter⟩ := indentation_concat (c := '\r') rfl x
    rw [bindLine, hindent, hafter, ← List.append_assoc, List.dropLast_concat, List.dropLast_concat,
      bindLine]
  · rfl

end PluginWorkshop.Php
