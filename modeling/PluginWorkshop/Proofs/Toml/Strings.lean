import Mathlib.Data.List.TakeWhile
import PluginWorkshop.Proofs.Text.Splitting
import PluginWorkshop.Toml.Reader
import PluginWorkshop.Toml.Writer

/-!
# Strings written and read

A text is written as a string in one of six forms, and read back from each of them
(`string?_stringChars`). Between double quotes every character is either written as it stands or
escaped (`Spelled`), so one lemma about a character serves the form on one line (`basicUpTo_escaped`)
and the form on several (`multilineBasicUpTo_escapeLines`). The end of a string in triple quotes is
where a run of three quotes begins, with up to two quotes more that belong to the text
(`closingQuotes?_append`).
-/

namespace PluginWorkshop.Toml

open Text

variable {text u rest : List Char} {c q : Char} {bound run : Nat}

/-! ## Characters -/

/-- How a character is written between double quotes. -/
inductive Spelled (c : Char) : List Char → Prop where
  /-- As it stands. -/
  | plain (hbackslash : c ≠ '\\') (hquote : c ≠ '"') (hcontrol : isControl c = false) :
      Spelled c [c]
  /-- With an escape, which is none for the end of a line. -/
  | escaped {e : Char} {tail : List Char}
      (hread : ∀ rest, escape? (e :: (tail ++ rest)) = some (c, rest))
      (hspace : isSpace e = false) (hnewline : e ≠ '\n') (hreturn : e ≠ '\r') :
      Spelled c ('\\' :: e :: tail)

theorem hexDigit?_upperHexDigit : ∀ n < 16, hexDigit? (upperHexDigit n) = some n := by decide

theorem escape?_hex (hc : c.toNat < 0x80) : escape?
    ('u' :: '0' :: '0' :: upperHexDigit (c.toNat / 16) :: upperHexDigit (c.toNat % 16) :: rest) =
      some (c, rest) := by
  have hzero : hexDigit? '0' = some 0 := rfl
  have hdigits : charOfHex?
      ['0', '0', upperHexDigit (c.toNat / 16), upperHexDigit (c.toNat % 16)] = some c := by
    have hnumber : 16 * (c.toNat / 16) + c.toNat % 16 = c.toNat := Nat.div_add_mod _ _
    simp [charOfHex?, hzero, hexDigit?_upperHexDigit (c.toNat / 16) (by omega),
      hexDigit?_upperHexDigit (c.toNat % 16) (by omega), hnumber, Char.ofNat_toNat,
      Nat.isValidChar, show c.toNat < 0xd800 by omega]
  simp [escape?, shortEscape?, hexLength?, hdigits]

/-- Every character is written in a way in which it is read. -/
theorem spelled_escapeChar (c : Char) : Spelled c (escapeChar c) := by
  unfold escapeChar
  split_ifs with hbackslash hquote h8 h9 h10 h12 h13 hcontrol
  · subst hbackslash; exact .escaped (fun _ => rfl) rfl (by decide) (by decide)
  · subst hquote; exact .escaped (fun _ => rfl) rfl (by decide) (by decide)
  · subst h8; exact .escaped (fun _ => rfl) rfl (by decide) (by decide)
  · subst h9; exact .escaped (fun _ => rfl) rfl (by decide) (by decide)
  · subst h10; exact .escaped (fun _ => rfl) rfl (by decide) (by decide)
  · subst h12; exact .escaped (fun _ => rfl) rfl (by decide) (by decide)
  · subst h13; exact .escaped (fun _ => rfl) rfl (by decide) (by decide)
  · exact .escaped (fun _ => escape?_hex (by omega)) rfl (by decide) (by decide)
  · refine .plain hbackslash hquote ?_
    simp only [not_or, Nat.not_lt] at hcontrol
    simp [isControl, hcontrol.2, Nat.not_lt.mpr hcontrol.1]

theorem Spelled.length_pos {spelling : List Char} (h : Spelled c spelling) :
    0 < spelling.length := by
  cases h <;> simp

/-- No spelling starts with a quote or the end of a line. -/
theorem Spelled.head?_ne {spelling : List Char} (h : Spelled c spelling) (rest : List Char) :
    (spelling ++ rest).head? ≠ some '"' ∧ ((spelling ++ rest).head? = some '\n' → c = '\n') ∧
      (spelling ++ rest).head? ≠ some '\r' := by
  cases h with
  | plain hbackslash hquote hcontrol =>
    refine ⟨by simpa using hquote, by simp, ?_⟩
    rintro hreturn
    obtain rfl : c = '\r' := by simpa using hreturn
    exact absurd hcontrol (by decide)
  | escaped => simp

/-! ## Strings on one line -/

theorem basicUpTo_spelled {spelling : List Char} (h : Spelled c spelling) (rest : List Char) :
    basicUpTo (bound + 1) (spelling ++ rest) = consRead c (basicUpTo bound rest) := by
  cases h with
  | plain hbackslash hquote hcontrol => simp [basicUpTo, hcontrol]
  | escaped hread =>
    simp only [List.cons_append, basicUpTo, hread, bind, Option.bind_some]

theorem length_le_length_flatMap_escapeChar (text : List Char) :
    text.length ≤ (text.flatMap escapeChar).length := by
  induction text with
  | nil => exact Nat.le_refl 0
  | cons c text ih =>
    have := (spelled_escapeChar c).length_pos
    rw [List.flatMap_cons, List.length_append, List.length_cons]
    omega

theorem basicUpTo_escaped (hbound : text.length < bound) (rest : List Char) :
    basicUpTo bound (text.flatMap escapeChar ++ '"' :: rest) = some (text, rest) := by
  induction text generalizing bound with
  | nil =>
    obtain ⟨bound, rfl⟩ : ∃ b, bound = b + 1 := ⟨bound - 1, by simp at hbound; omega⟩
    rfl
  | cons c text ih =>
    rw [List.length_cons] at hbound
    obtain ⟨bound, rfl⟩ : ∃ b, bound = b + 1 := ⟨bound - 1, by omega⟩
    rw [List.flatMap_cons, List.append_assoc, basicUpTo_spelled (spelled_escapeChar c),
      ih (by omega)]
    rfl

theorem literal_append (hquote : '\'' ∉ text) (hcontrol : ∀ c ∈ text, isControl c = false)
    (rest : List Char) : literal (text ++ '\'' :: rest) = some (text, rest) := by
  induction text with
  | nil => rfl
  | cons c text ih =>
    rw [List.mem_cons, not_or] at hquote
    obtain ⟨hc, htext⟩ := List.forall_mem_cons.mp hcontrol
    have hne : c ≠ '\'' := Ne.symm hquote.1
    rw [List.cons_append, literal, if_neg (by simp [hc]), ih hquote.2 htext]
    · rfl
    · simpa using hne

/-! ## Strings on several lines -/

/-- In front of the end of a string, nothing but quotes that belong to it ends it. -/
theorem closingQuotes?_append (hrun : ¬ [q, q, q] <+: u) (hrest : rest.head? ≠ some q) :
    closingQuotes? q (u ++ q :: q :: q :: rest) =
      if u.all (· == q) then some (u, rest) else none := by
  have hstop : rest.takeWhile (· == q) = [] := by
    cases rest with
    | nil => rfl
    | cons d rest => simpa using hrest
  match u, hrun with
  | [], _ => simp [closingQuotes?, hstop]
  | [a], _ =>
    by_cases ha : a = q <;> simp [closingQuotes?, hstop, ha]
  | [a, b], _ =>
    by_cases ha : a = q <;> by_cases hb : b = q <;> simp [closingQuotes?, hstop, ha, hb]
  | a :: b :: c :: u, hrun =>
    by_cases ha : a = q <;> by_cases hb : b = q <;> by_cases hc : c = q <;>
      simp_all [closingQuotes?]

theorem afterNewline?_newline (rest : List Char) : afterNewline? ('\n' :: rest) = some rest := rfl

theorem afterNewline?_cons_of_ne (hnewline : c ≠ '\n') (hreturn : c ≠ '\r') (rest : List Char) :
    afterNewline? (c :: rest) = none := by
  rw [afterNewline?]
  · simpa using hnewline
  · simp [hreturn]

theorem ne_return_of_isUnprintable (h : isUnprintable c = false) : c ≠ '\r' := by
  rintro rfl
  exact absurd h (by decide)

theorem isControl_of_isUnprintable (h : isUnprintable c = false) (hnewline : c ≠ '\n') :
    isControl c = false := by
  simp only [isUnprintable, isControl] at h ⊢
  simpa [hnewline] using h

/-- A text of several lines in which the quote does not stand three times in a row. -/
theorem multilineLiteralUpTo_append (hrun : ¬ ['\'', '\'', '\''] <:+: text)
    (hprintable : text.any isUnprintable = false) (hrest : rest.head? ≠ some '\'')
    (hbound : text.length < bound) :
    multilineLiteralUpTo bound (text ++ '\'' :: '\'' :: '\'' :: rest) = some (text, rest) := by
  induction text generalizing bound with
  | nil =>
    obtain ⟨bound, rfl⟩ : ∃ b, bound = b + 1 := ⟨bound - 1, by simp at hbound; omega⟩
    have hclosing := closingQuotes?_append (u := []) (by simp) hrest
    rw [List.nil_append] at hclosing ⊢
    simp [multilineLiteralUpTo, hclosing]
  | cons c text ih =>
    rw [List.length_cons] at hbound
    obtain ⟨bound, rfl⟩ : ∃ b, bound = b + 1 := ⟨bound - 1, by omega⟩
    rw [List.any_cons, Bool.or_eq_false_iff] at hprintable
    have hclosing := closingQuotes?_append (fun h => hrun h.isInfix) hrest
    have htext := ih (fun h => hrun (h.trans (List.suffix_cons c text).isInfix)) hprintable.2
      (show text.length < bound by omega)
    rw [List.cons_append] at hclosing ⊢
    rw [multilineLiteralUpTo, hclosing]
    by_cases hall : (c :: text).all (· == '\'') = true
    · rw [if_pos hall]
    · rw [if_neg hall]
      by_cases hnewline : c = '\n'
      · rw [hnewline, afterNewline?_newline]
        dsimp only
        rw [htext]
        rfl
      · rw [afterNewline?_cons_of_ne hnewline (ne_return_of_isUnprintable hprintable.1)]
        dsimp only
        rw [if_neg (by simp [isControl_of_isUnprintable hprintable.1 hnewline]), htext]
        rfl

/-- Of the quotes in front of an escaped text, at most two stand in a row with those before it. -/
theorem length_takeWhile_escapeLines (hrun : run ≤ 2) (text : List Char) :
    run + ((escapeLines run text).takeWhile (· == '"')).length ≤ 2 := by
  induction text generalizing run with
  | nil => simpa [escapeLines] using hrun
  | cons c text ih =>
    rw [escapeLines]
    split_ifs with hquote hthird hnewline
    · simpa using hrun
    · have := ih (show run + 1 ≤ 2 by omega)
      simp
      omega
    · simpa using hrun
    · have hhead := (spelled_escapeChar c).head?_ne (escapeLines 0 text)
      have hnone : (escapeChar c ++ escapeLines 0 text).takeWhile (· == '"') = [] := by
        cases h : escapeChar c ++ escapeLines 0 text with
        | nil => rfl
        | cons d s =>
          rw [h] at hhead
          simpa using hhead.1
      simpa [hnone] using hrun

theorem not_quotes_prefix_escapeLines (hrun : run ≤ 2) (text : List Char) :
    ¬ ['"', '"', '"'] <+: escapeLines run text := by
  rintro ⟨s, hs⟩
  have := length_takeWhile_escapeLines hrun text
  rw [← hs] at this
  simp only [List.cons_append, List.nil_append, List.takeWhile_cons, beq_self_eq_true, if_true,
    List.length_cons] at this
  omega

/-- Quotes alone are not escaped as long as they are few. -/
theorem escapeLines_of_all_quotes (hrun : run ≤ 2)
    (h : (escapeLines run u).all (· == '"') = true) : escapeLines run u = u := by
  induction u generalizing run with
  | nil => rfl
  | cons c u ih =>
    rw [escapeLines] at h ⊢
    split_ifs at h ⊢ with hquote hthird hnewline
    · simp at h
    · rw [List.all_cons, Bool.and_eq_true] at h
      rw [ih (by omega) h.2, hquote]
    · simp at h
    · rw [List.all_append, Bool.and_eq_true] at h
      have hhead := (spelled_escapeChar c).head?_ne []
      cases hspelling : escapeChar c with
      | nil => simpa [hspelling] using (spelled_escapeChar c).length_pos
      | cons d s =>
        rw [hspelling] at h hhead
        simp_all

theorem multilineBasicUpTo_spelled {spelling : List Char} (h : Spelled c spelling)
    (hnewline : c ≠ '\n') (rest : List Char) :
    multilineBasicUpTo (bound + 1) (spelling ++ rest) =
      consRead c (multilineBasicUpTo bound rest) := by
  cases h with
  | plain hbackslash hquote hcontrol =>
    have hreturn : c ≠ '\r' := by
      rintro rfl
      exact absurd hcontrol (by decide)
    have hclosing : closingQuotes? '"' (c :: rest) = none := by
      simp [closingQuotes?, hquote]
    simp [multilineBasicUpTo, hclosing, afterNewline?_cons_of_ne hnewline hreturn, hcontrol]
  | @escaped e tail hread hspace hne hne' =>
    have hnone : afterContinuation? (e :: (tail ++ rest)) = none := by
      have hskip : skipSpace (e :: (tail ++ rest)) = e :: (tail ++ rest) := by
        simp [skipSpace, hspace]
      rw [afterContinuation?, hskip, afterNewline?_cons_of_ne hne hne']
      rfl
    simp only [List.cons_append, multilineBasicUpTo, hnone, hread, bind, Option.bind_some]

/-- A text of several lines with its escapes. -/
theorem multilineBasicUpTo_escapeLines (hrun : run ≤ 2) (hrest : rest.head? ≠ some '"')
    (hbound : text.length < bound) :
    multilineBasicUpTo bound (escapeLines run text ++ '"' :: '"' :: '"' :: rest) =
      some (text, rest) := by
  induction text generalizing bound run with
  | nil =>
    obtain ⟨bound, rfl⟩ : ∃ b, bound = b + 1 := ⟨bound - 1, by simp at hbound; omega⟩
    have hclosing := closingQuotes?_append (u := []) (by simp) hrest
    rw [List.nil_append] at hclosing
    simp [escapeLines, multilineBasicUpTo, hclosing]
  | cons c text ih =>
    rw [List.length_cons] at hbound
    obtain ⟨bound, rfl⟩ : ∃ b, bound = b + 1 := ⟨bound - 1, by omega⟩
    by_cases hquote : c = '"'
    · subst hquote
      by_cases hthird : run = 2
      · -- The third quote of a run is escaped.
        have hspelling : '\\' :: '"' :: escapeLines 0 text = escapeChar '"' ++ escapeLines 0 text := rfl
        rw [escapeLines, if_pos rfl, if_pos hthird, hspelling, List.append_assoc,
          multilineBasicUpTo_spelled (spelled_escapeChar '"') (by decide),
          ih (Nat.zero_le 2) (by omega)]
        rfl
      · have hclosing :=
          closingQuotes?_append (not_quotes_prefix_escapeLines hrun ('"' :: text)) hrest
        have hall := escapeLines_of_all_quotes (u := '"' :: text) hrun
        rw [escapeLines, if_pos rfl, if_neg hthird] at hclosing hall ⊢
        rw [List.cons_append] at hclosing ⊢
        rw [multilineBasicUpTo, hclosing, ih (by omega) (by omega),
          afterNewline?_cons_of_ne (by decide) (by decide)]
        · by_cases hquotes : ('"' :: escapeLines (run + 1) text).all (· == '"') = true
          · rw [if_pos hquotes, hall hquotes]
          · rw [if_neg hquotes]
            rfl
        · simp
    · by_cases hnewline : c = '\n'
      · subst hnewline
        have hclosing : closingQuotes? '"'
            ('\n' :: (escapeLines 0 text ++ '"' :: '"' :: '"' :: rest)) = none := by
          simp [closingQuotes?]
        rw [escapeLines, if_neg hquote, if_pos rfl, List.cons_append, multilineBasicUpTo, hclosing]
        · rw [afterNewline?_newline]
          dsimp only
          rw [ih (Nat.zero_le 2) (by omega)]
          rfl
        · simp
      · rw [escapeLines, if_neg hquote, if_neg hnewline, List.append_assoc,
          multilineBasicUpTo_spelled (spelled_escapeChar c) hnewline, ih (Nat.zero_le 2) (by omega)]
        rfl

theorem length_le_length_escapeLines (run : Nat) (text : List Char) :
    text.length ≤ (escapeLines run text).length := by
  induction text generalizing run with
  | nil => exact Nat.zero_le _
  | cons c text ih =>
    have hlength := (spelled_escapeChar c).length_pos
    have hrun := ih 0
    have hnext := ih (run + 1)
    rw [escapeLines, List.length_cons]
    split_ifs <;> simp only [List.length_cons, List.length_append] <;> omega

/-! ## All forms -/

theorem string?_eq_lineString? {s : List Char} (hdouble : ¬ ['"', '"', '"'] <+: s)
    (hsingle : ¬ ['\'', '\'', '\''] <+: s) : string? s = lineString? s := by
  unfold string?
  split
  · exact absurd ⟨_, rfl⟩ hdouble
  · exact absurd ⟨_, rfl⟩ hsingle
  · rfl

theorem string?_basic (hrest : rest.head? ≠ some '"') :
    string? (between ['"'] (text.flatMap escapeChar) false ++ rest) =
      some (String.ofList text, rest) := by
  have hform : between ['"'] (text.flatMap escapeChar) false ++ rest =
      '"' :: (text.flatMap escapeChar ++ '"' :: rest) := by simp [between]
  have hlength := length_le_length_flatMap_escapeChar text
  have hline : ¬ ['"', '"', '"'] <+: '"' :: (text.flatMap escapeChar ++ '"' :: rest) := by
    cases text with
    | nil =>
      cases rest with
      | nil => decide
      | cons d rest => simpa [eq_comm] using hrest
    | cons c text =>
      have hhead := ((spelled_escapeChar c).head?_ne (text.flatMap escapeChar ++ '"' :: rest)).1
      rw [List.flatMap_cons, List.append_assoc]
      cases h : escapeChar c ++ (text.flatMap escapeChar ++ '"' :: rest) with
      | nil => decide
      | cons d s =>
        rw [h] at hhead
        simp [List.cons_prefix_cons, Ne.symm (show d ≠ '"' by simpa using hhead)]
  rw [hform, string?_eq_lineString? hline (by simp), lineString?, basicUpTo_escaped]
  · rfl
  · rw [List.length_append, List.length_cons]
    omega

theorem string?_literal (hquote : '\'' ∉ text) (hcontrol : ∀ c ∈ text, isControl c = false)
    (hrest : rest.head? ≠ some '\'') :
    string? (between ['\''] text false ++ rest) = some (String.ofList text, rest) := by
  have hform : between ['\''] text false ++ rest = '\'' :: (text ++ '\'' :: rest) := by
    simp [between]
  have hline : ¬ ['\'', '\'', '\''] <+: '\'' :: (text ++ '\'' :: rest) := by
    cases text with
    | nil =>
      cases rest with
      | nil => decide
      | cons d rest => simpa [eq_comm] using hrest
    | cons c text =>
      rw [List.mem_cons, not_or] at hquote
      simp [List.cons_prefix_cons, hquote.1]
  rw [hform, string?_eq_lineString? (by simp) hline, lineString?, literal_append hquote hcontrol]
  rfl

/-- Without a line break at its start, nothing is dropped of a string in triple quotes. -/
theorem dropNewline_of_head?_ne {s : List Char} (hnewline : s.head? ≠ some '\n')
    (hreturn : s.head? ≠ some '\r') : dropNewline s = s := by
  cases s with
  | nil => rfl
  | cons c s =>
    rw [dropNewline, afterNewline?_cons_of_ne (by simpa using hnewline) (by simpa using hreturn)]
    rfl

theorem string?_escapeLines (hrest : rest.head? ≠ some '"') :
    string? (between ['"', '"', '"'] (escapeLines 0 text) (text.contains '\n') ++ rest) =
      some (String.ofList text, rest) := by
  have hlength := length_le_length_escapeLines 0 text
  have hread (bound : Nat) (hbound : text.length < bound) :=
    multilineBasicUpTo_escapeLines (Nat.zero_le 2) hrest hbound
  cases hlines : text.contains '\n' with
  | true =>
    simp only [between, List.cons_append, List.nil_append, List.append_assoc, if_true, string?]
    rw [show dropNewline ('\n' :: (escapeLines 0 text ++ '"' :: '"' :: '"' :: rest)) =
        escapeLines 0 text ++ '"' :: '"' :: '"' :: rest from rfl,
      hread _ (by rw [List.length_cons, List.length_append]; omega)]
    rfl
  | false =>
    have hstart : dropNewline (escapeLines 0 text ++ '"' :: '"' :: '"' :: rest) =
        escapeLines 0 text ++ '"' :: '"' :: '"' :: rest := by
      cases text with
      | nil => rfl
      | cons c text =>
        have hne : c ≠ '\n' := by
          rintro rfl
          simp at hlines
        by_cases hquote : c = '"'
        · subst hquote
          rfl
        · have hhead := (spelled_escapeChar c).head?_ne
            (escapeLines 0 text ++ '"' :: '"' :: '"' :: rest)
          rw [escapeLines, if_neg hquote, if_neg hne, List.append_assoc]
          exact dropNewline_of_head?_ne (fun h => hne (hhead.2.1 h)) hhead.2.2
    simp only [between, List.cons_append, List.nil_append, List.append_assoc, Bool.false_eq_true,
      if_false, string?]
    rw [hstart, hread _ (by rw [List.length_append, List.length_cons]; omega)]
    rfl

theorem string?_multilineLiteral (hrun : ¬ ['\'', '\'', '\''] <:+: text)
    (hprintable : text.any isUnprintable = false) (hrest : rest.head? ≠ some '\'') :
    string? (between ['\'', '\'', '\''] text (text.contains '\n') ++ rest) =
      some (String.ofList text, rest) := by
  have hread (bound : Nat) (hbound : text.length < bound) :=
    multilineLiteralUpTo_append hrun hprintable hrest hbound
  cases hlines : text.contains '\n' with
  | true =>
    simp only [between, List.cons_append, List.nil_append, List.append_assoc, if_true, string?]
    rw [show dropNewline ('\n' :: (text ++ '\'' :: '\'' :: '\'' :: rest)) =
        text ++ '\'' :: '\'' :: '\'' :: rest from rfl,
      hread _ (by rw [List.length_cons, List.length_append]; omega)]
    rfl
  | false =>
    have hstart : dropNewline (text ++ '\'' :: '\'' :: '\'' :: rest) =
        text ++ '\'' :: '\'' :: '\'' :: rest := by
      cases text with
      | nil => rfl
      | cons c text =>
        rw [List.any_cons, Bool.or_eq_false_iff] at hprintable
        refine dropNewline_of_head?_ne ?_ (by simpa using ne_return_of_isUnprintable hprintable.1)
        simp only [List.cons_append, List.head?_cons, ne_eq, Option.some.injEq]
        rintro rfl
        simp at hlines
    simp only [between, List.cons_append, List.nil_append, List.append_assoc, Bool.false_eq_true,
      if_false, string?]
    rw [hstart, hread _ (by rw [List.length_append, List.length_cons]; omega)]
    rfl

/-- A text written as a string is read back, whatever stands in it. -/
theorem string?_stringChars (text : List Char) (hdouble : rest.head? ≠ some '"')
    (hsingle : rest.head? ≠ some '\'') :
    string? (stringChars text ++ rest) = some (String.ofList text, rest) := by
  unfold stringChars
  dsimp only
  split_ifs with hplain hliteral hlines hmultiline hescaped
  · exact string?_basic hdouble
  · simp only [Bool.and_eq_true, Bool.not_eq_true', List.contains_eq_mem, decide_eq_false_iff_not]
      at hliteral
    obtain ⟨⟨hquote, hline⟩, hprintable⟩ := hliteral
    refine string?_literal hquote (fun c hc => ?_) hsingle
    exact isControl_of_isUnprintable (by simpa using List.any_eq_false.mp hprintable c hc)
      (fun h => hline (h ▸ hc))
  · exact string?_escapeLines hdouble
  · simp only [Bool.and_eq_true, Bool.not_eq_true', Bool.eq_false_iff, ne_eq, containsText_iff]
      at hmultiline
    exact string?_multilineLiteral hmultiline.2 (by simpa using hmultiline.1) hsingle
  · rw [← hescaped]
    exact string?_escapeLines hdouble
  · exact string?_basic hdouble

end PluginWorkshop.Toml
