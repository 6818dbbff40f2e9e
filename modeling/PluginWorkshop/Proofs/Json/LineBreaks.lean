import PluginWorkshop.Proofs.Json.Sources
import PluginWorkshop.Proofs.Text.Splitting

/-!
# Line endings in texts of values

Which line ending a text has is decided by whether a carriage return stands before a line feed
anywhere in it. In a text that is put together from pieces it does so only inside one of them, as
long as no piece ends in a carriage return (`Unbroken.append`). A value that was read ends in no
space (`getLast?_ne_return`), so that its text is such a piece (`unbroken_of_isInfix`), and a
printed value has no carriage return but for those in the line endings it is printed with
(`return_notMem_prettyChars`).
-/

namespace PluginWorkshop.Json

open Text

/-! ## Pieces of a text -/

/-- Every carriage return is followed by another character than a line feed. -/
def Unbroken (s : List Char) : Prop :=
  ∀ front rest, s = front ++ '\r' :: rest → ∃ c tail, rest = c :: tail ∧ c ≠ '\n'

theorem unbroken_of_return_notMem {s : List Char} (h : '\r' ∉ s) : Unbroken s := by
  rintro front rest rfl
  simp at h

theorem Unbroken.append {a b : List Char} (ha : Unbroken a) (hb : Unbroken b) :
    Unbroken (a ++ b) := by
  intro front rest h
  rcases List.append_eq_append_iff.mp h with ⟨front', rfl, hb'⟩ | ⟨tail, ha', hrest⟩
  · exact hb front' rest hb'
  · cases tail with
    | nil => exact hb [] rest hrest.symm
    | cons c tail =>
      obtain ⟨rfl, rfl⟩ : '\r' = c ∧ rest = tail ++ b := by simpa using hrest
      obtain ⟨d, tail, rfl, hd⟩ := ha front tail ha'
      exact ⟨d, tail ++ b, rfl, hd⟩

theorem Unbroken.containsText {s : List Char} (h : Unbroken s) :
    containsText ['\r', '\n'] s = false := by
  rw [← Bool.not_eq_true, containsText_iff]
  rintro ⟨front, rest, rfl⟩
  obtain ⟨c, tail, heq, hc⟩ := h front ('\n' :: rest) (by simp)
  obtain ⟨rfl, -⟩ := List.cons.inj heq
  exact hc rfl

/-- A part of a text with line feeds for line endings, which does not end inside a line ending. -/
theorem unbroken_of_isInfix {s t : List Char} (h : s <:+: t)
    (ht : Text.containsText ['\r', '\n'] t = false) (hs : s.getLast? ≠ some '\r') :
    Unbroken s := by
  rintro front rest rfl
  cases rest with
  | nil => simp at hs
  | cons c tail =>
    refine ⟨c, tail, rfl, ?_⟩
    rintro rfl
    rw [← Bool.not_eq_true, containsText_iff] at ht
    exact ht (List.IsInfix.trans ⟨front, tail, by simp⟩ h)

theorem unbroken_commaSeparated :
    ∀ {items : List (List Char)}, (∀ item ∈ items, Unbroken item) → Unbroken (commaSeparated items)
  | [], _ => unbroken_of_return_notMem (by simp [commaSeparated])
  | [item], h => h item (by simp)
  | item :: next :: items, h => by
    have hcomma : Unbroken [','] := unbroken_of_return_notMem (by decide)
    rw [commaSeparated, ← List.singleton_append]
    exact (h item (by simp)).append <| hcomma.append <|
      unbroken_commaSeparated fun x hx => h x (List.mem_cons_of_mem _ hx)

/-! ## Values that were read -/

theorem exists_quote_of_stringBody {s t rest : List Char} (h : stringBody s = .ok (t, rest)) :
    ∃ front, s = front ++ '"' :: rest := by
  fun_induction stringBody s generalizing t with
  | case2 r =>
    obtain ⟨-, rfl⟩ : [] = t ∧ r = rest := by simpa using h
    exact ⟨[], rfl⟩
  | case7 a b c d n _ _ _ e f g k after m _ _ ih =>
    obtain ⟨t', h', -⟩ := consRead_ok h
    obtain ⟨front, rfl⟩ := ih h'
    exact ⟨['\\', 'u', a, b, c, d, '\\', 'u', e, f, g, k] ++ front, rfl⟩
  | case14 a b c d r n _ _ _ ih =>
    obtain ⟨t', h', -⟩ := consRead_ok h
    obtain ⟨front, rfl⟩ := ih h'
    exact ⟨['\\', 'u', a, b, c, d] ++ front, rfl⟩
  | case16 e r _ _ c _ ih =>
    obtain ⟨t', h', -⟩ := consRead_ok h
    obtain ⟨front, rfl⟩ := ih h'
    exact ⟨['\\', e] ++ front, rfl⟩
  | case19 c r _ _ _ _ _ _ ih =>
    obtain ⟨t', h', -⟩ := consRead_ok h
    obtain ⟨front, rfl⟩ := ih h'
    exact ⟨c :: front, rfl⟩
  | _ => simp at h

section

variable {bracket : Bracket} {item : Reader α} {text : List Char} {as : List α}

theorem ItemsText.exists_concat (h : ItemsText bracket item text as) :
    ∃ front, text = front ++ [bracket.close] := by
  induction h with
  | @last text gap a _ _ => exact ⟨text ++ gap, rfl⟩
  | @more text gap gap' tail a as _ _ _ _ _ ih =>
    obtain ⟨front, rfl⟩ := ih
    exact ⟨text ++ gap ++ ',' :: gap' ++ front, by simp⟩

theorem SequenceText.exists_concat (h : SequenceText bracket item text as) :
    ∃ front, text = front ++ [bracket.close] := by
  cases h with
  | @empty gap _ => exact ⟨gap, rfl⟩
  | @items gap tail as _ _ h =>
    obtain ⟨front, rfl⟩ := h.exists_concat
    exact ⟨gap ++ front, by simp⟩

end

theorem ValueText.getLast?_ne_return {nested : Option (Reader Json)} {text : List Char} {v : Json}
    (h : ValueText stringText nested text v) : text.getLast? ≠ some '\r' := by
  cases h with
  | null => decide
  | bool b => cases b <;> decide
  | @string s t h =>
    have h := h.ends_nil
    simp only [stringText] at h
    cases hr : stringBody s with
    | error e => simp [hr, Except.map] at h
    | ok p =>
      obtain ⟨-, hrest⟩ : String.ofList p.1 = t ∧ p.2 = [] := by simpa [hr, Except.map] using h
      obtain ⟨front, rfl⟩ := exists_quote_of_stringBody hr
      rw [hrest, ← List.cons_append, List.getLast?_concat]
      decide
  | number h => exact fun hlast => h.isPlain.return_notMem (List.mem_of_getLast? hlast)
  | array _ h =>
    obtain ⟨front, rfl⟩ := h.exists_concat
    rw [← List.cons_append, List.getLast?_concat]
    decide
  | object _ h =>
    obtain ⟨front, rfl⟩ := h.exists_concat
    rw [← List.cons_append, List.getLast?_concat]
    decide

/-- The text of a value does not end in a carriage return. -/
theorem IsSource.getLast?_ne_return {depth : Nat} {m : String × Json × List Char}
    (h : IsSource depth m) : m.2.2.getLast? ≠ some '\r' := by
  obtain ⟨htakes, c, tail, htext, hc, -⟩ := h
  have hread := htakes.ends_nil
  have hskip : skipSpace m.2.2 = m.2.2 := by rw [htext, skipSpace_cons hc]
  cases depth with
  | zero =>
    rw [value_zero] at hread
    obtain ⟨t, ht, hs⟩ := of_valueWith isLocal_stringText (by simp) hread
    rw [← hskip, hs, List.append_nil]
    exact ht.getLast?_ne_return
  | succ depth =>
    rw [value_succ] at hread
    obtain ⟨t, ht, hs⟩ := of_valueWith isLocal_stringText
      (by rintro item ⟨⟩; exact ⟨isLocal_value depth, value_nil depth⟩) hread
    rw [← hskip, hs, List.append_nil]
    exact ht.getLast?_ne_return

/-! ## Values that are printed -/

theorem return_notMem_commaSeparated :
    ∀ {items : List (List Char)}, (∀ item ∈ items, '\r' ∉ item) → '\r' ∉ commaSeparated items
  | [], _ => by simp [commaSeparated]
  | [item], h => h item (by simp)
  | item :: next :: items, h => by
    have ih := return_notMem_commaSeparated fun x hx => h x (List.mem_cons_of_mem item hx)
    simp [commaSeparated, h item, ih]

theorem return_notMem_replaceChar {sep s : List Char} (hsep : '\r' ∉ sep) (hs : '\r' ∉ s) :
    '\r' ∉ replaceChar '\n' sep s := by
  intro hmem
  obtain ⟨c, hc, hmem⟩ := List.mem_flatMap.mp hmem
  split at hmem
  · exact hsep hmem
  · exact hs (List.mem_singleton.mp hmem ▸ hc)

theorem return_notMem_block {margin unit : List Char} (hmargin : IsIndent margin)
    (hunit : IsIndent unit) {opening closing : Char} (hopening : '\r' ≠ opening)
    (hclosing : '\r' ≠ closing) {items : List (List Char)} (h : ∀ item ∈ items, '\r' ∉ item) :
    '\r' ∉ block margin unit opening closing items := by
  cases items with
  | nil => simp [block, hopening, hclosing]
  | cons item items =>
    have hlines : '\r' ∉ commaSeparated
        ((item :: items).map fun item => '\n' :: margin ++ unit ++ item) := by
      refine return_notMem_commaSeparated fun line hline => ?_
      obtain ⟨x, hx, rfl⟩ := List.mem_map.mp hline
      simp [hmargin.return_notMem, hunit.return_notMem, h x hx]
    simp only [block, List.cons_append, List.mem_cons, List.mem_append, hopening, hclosing,
      hmargin.return_notMem, List.not_mem_nil]
    simpa using hlines

/-- A printed value has no carriage return in it. -/
theorem return_notMem_prettyChars {unit : List Char} (hunit : IsIndent unit) :
    ∀ {depth : Nat} {v : Json} {margin : List Char}, IsIndent margin → Readable depth v →
      '\r' ∉ prettyChars margin unit v
  | _, .null, _, _, _ => by simp [prettyChars]
  | _, .bool true, _, _, _ => by simp [prettyChars]
  | _, .bool false, _, _, _ => by simp [prettyChars]
  | _, .string s, _, _, _ => (isPlain_quote s).return_notMem
  | depth, .number text, _, _, h => by
    have hn : IsNumber text.toList text.toList := by cases depth <;> exact h
    exact hn.isPlain.return_notMem
  | depth + 1, .array items, margin, hmargin, h => by
    rw [prettyChars, prettyItems_eq]
    refine return_notMem_block hmargin hunit (by decide) (by decide) fun line hline => ?_
    obtain ⟨item, hitem, rfl⟩ := List.mem_map.mp hline
    exact return_notMem_prettyChars hunit (hmargin.append hunit) (h item hitem)
  | depth + 1, .object members, margin, hmargin, h => by
    rw [prettyChars, prettyMembers_eq]
    refine return_notMem_block hmargin hunit (by decide) (by decide) fun line hline => ?_
    obtain ⟨m, hm, rfl⟩ := List.mem_map.mp hline
    have hvalue := return_notMem_prettyChars hunit (hmargin.append hunit) (h.2 m hm)
    simp [(isPlain_quote m.1).return_notMem, hvalue]

end PluginWorkshop.Json
