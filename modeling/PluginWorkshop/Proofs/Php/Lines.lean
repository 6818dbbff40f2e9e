import PluginWorkshop.Php.Source
import PluginWorkshop.Proofs.Text.Splitting
import Mathlib.Tactic.Common

/-!
# Lines that come back

Lines that are put together to a text are the lines of that text (`parse_render`), if none of them
has a line feed in it and none ends in what would be taken for a part of the line ending
(`SourceText.Sound`). The lines of a text that does not end in a carriage return are of this kind
(`sound_parse`), and stay so when lines are inserted (`Sound.insert`). So are lines that end in line
feeds and hold neither of the two characters (`parse_plainSource`).
-/

namespace PluginWorkshop.Php

open Text

/-- For a text that is written out, `rfl` gives its characters, and no bytes have to be decoded. -/
theorem SourceText.parse_of_eq_ofList {text : String} {s : List Char} (h : text = String.ofList s) :
    parse text = ⟨linesOf s, .detect s, endsWithNewline s⟩ := by
  rw [parse, h, String.toList_ofList]

namespace LineEnding

/-- What stands before the line feed. -/
def return? : LineEnding → List Char
  | lf => []
  | crlf => ['\r']

theorem chars_eq (ending : LineEnding) : ending.chars = ending.return? ++ ['\n'] := by
  cases ending <;> rfl

theorem newline_notMem_return? (ending : LineEnding) : '\n' ∉ ending.return? := by
  cases ending <;> simp [return?]

end LineEnding

theorem dropReturn_of_ne {line : Line} (h : line.getLast? ≠ some '\r') : dropReturn line = line :=
  if_neg h

theorem dropReturn_concat (line : Line) : dropReturn (line ++ ['\r']) = line := by
  simp [dropReturn]

theorem mem_of_mem_dropReturn {line : Line} {c : Char} (h : c ∈ dropReturn line) : c ∈ line := by
  rw [dropReturn] at h
  split_ifs at h
  · exact List.dropLast_subset line h
  · exact h

theorem LineEnding.dropReturn_append_return? {ending : LineEnding} {line : Line}
    (h : ending = .lf → line.getLast? ≠ some '\r') : dropReturn (line ++ ending.return?) = line := by
  cases ending with
  | lf => simpa [return?] using dropReturn_of_ne (h rfl)
  | crlf => exact dropReturn_concat line

namespace SourceText

/-- Lines that can be told apart again once they are put together. -/
structure Sound (s : SourceText) : Prop where
  lines_ne_nil : s.lines ≠ []
  newline_notMem : ∀ line ∈ s.lines, '\n' ∉ line
  /-- A line that no ending follows is not empty and not taken for one with half an ending. -/
  last_line : s.trailingNewline = false → ∀ line ∈ s.lines.getLast?,
    line ≠ [] ∧ line.getLast? ≠ some '\r'
  return_of_lf : s.lineEnding = .lf → ∀ line ∈ s.lines, line.getLast? ≠ some '\r'
  /-- The text has a line ending. -/
  of_crlf : s.lineEnding = .crlf → s.trailingNewline = true ∨ 2 ≤ s.lines.length

variable {s : SourceText}

theorem dropReturn_append_return? (h : s.Sound) {line : Line} (hline : line ∈ s.lines) :
    dropReturn (line ++ s.lineEnding.return?) = line :=
  LineEnding.dropReturn_append_return? fun hending => h.return_of_lf hending line hline

theorem join_append_ending (lines : List Line) (h : lines ≠ []) (ending : List Char) :
    join ending lines ++ ending = join ending (lines ++ [[]]) := by
  rw [join_append ending h (List.cons_ne_nil _ _), join, List.append_nil]

theorem exists_append_of_join_concat (sep last : List Char) (front : List Line) :
    ∃ a, join sep (front ++ [last]) = a ++ last := by
  induction front with
  | nil => exact ⟨[], rfl⟩
  | cons line front ih =>
    obtain ⟨a, h⟩ := ih
    exact ⟨line ++ sep ++ a, by rw [List.cons_append, join_cons_of_ne_nil (by simp), h]; simp⟩

/-! ## The text of lines -/

/-- After a trailing newline the text ends with a line ending. -/
theorem renderChars_of_trailing (h : s.trailingNewline = true) :
    s.renderChars = join s.lineEnding.chars s.lines ++ s.lineEnding.chars := by
  rw [renderChars, if_pos h]

theorem splitOn_of_trailing (hs : s.Sound) (h : s.trailingNewline = true) :
    splitOn '\n' s.renderChars = s.lines.map (· ++ s.lineEnding.return?) ++ [[]] := by
  rw [renderChars_of_trailing h, join_append_ending _ hs.lines_ne_nil, LineEnding.chars_eq]
  exact splitOn_join_append s.lineEnding.newline_notMem_return? hs.newline_notMem (by simp)

/-- Without a trailing newline the text ends with its last line. -/
theorem renderChars_concat {front : List Line} {last : Line} (htrailing : s.trailingNewline = false)
    (hlines : s.lines = front ++ [last]) (hnewline : ∀ line ∈ s.lines, '\n' ∉ line) :
    s.renderChars = join s.lineEnding.chars (front ++ [last]) ∧
      splitOn '\n' s.renderChars = front.map (· ++ s.lineEnding.return?) ++ [last] := by
  have hchars : s.renderChars = join s.lineEnding.chars (front ++ [last]) := by
    rw [renderChars, if_neg (by simp [htrailing]), hlines, List.append_nil]
  refine ⟨hchars, ?_⟩
  rw [hchars, LineEnding.chars_eq]
  exact splitOn_join_append s.lineEnding.newline_notMem_return?
    (fun line hline => hnewline line (by simp [hlines, hline])) (hnewline last (by simp [hlines]))

theorem exists_last (hs : s.Sound) (h : s.trailingNewline = false) :
    ∃ front last, s.lines = front ++ [last] ∧ last ≠ [] ∧ last.getLast? ≠ some '\r' := by
  obtain ⟨front, last, hlines⟩ := (List.eq_nil_or_concat s.lines).resolve_left hs.lines_ne_nil
  rw [List.concat_eq_append] at hlines
  obtain ⟨hne, hreturn⟩ := hs.last_line h last (by simp [hlines])
  exact ⟨front, last, hlines, hne, hreturn⟩

theorem endsWithNewline_join_concat {last : Line} (hne : last ≠ []) (hnewline : '\n' ∉ last)
    (sep : List Char) (front : List Line) :
    endsWithNewline (join sep (front ++ [last])) = false := by
  obtain ⟨a, ha⟩ := exists_append_of_join_concat sep last front
  rw [endsWithNewline, ha, List.getLast?_append_of_ne_nil _ hne, beq_eq_false_iff_ne]
  exact fun hlast => hnewline (List.mem_of_getLast? hlast)

theorem endsWithNewline_renderChars (hs : s.Sound) :
    endsWithNewline s.renderChars = s.trailingNewline := by
  cases htrailing : s.trailingNewline with
  | true =>
    rw [endsWithNewline, renderChars_of_trailing htrailing, LineEnding.chars_eq]
    simp
  | false =>
    obtain ⟨front, last, hlines, hne, -⟩ := exists_last hs htrailing
    rw [(renderChars_concat htrailing hlines hs.newline_notMem).1]
    exact endsWithNewline_join_concat hne (hs.newline_notMem last (by simp [hlines])) _ _

theorem renderChars_ne_nil (hs : s.Sound) : s.renderChars ≠ [] := by
  intro hnil
  cases htrailing : s.trailingNewline with
  | true =>
    have hends := endsWithNewline_renderChars hs
    simp [hnil, htrailing, endsWithNewline] at hends
  | false =>
    obtain ⟨front, last, hlines, hne, -⟩ := exists_last hs htrailing
    obtain ⟨a, ha⟩ := exists_append_of_join_concat s.lineEnding.chars last front
    rw [(renderChars_concat htrailing hlines hs.newline_notMem).1, ha] at hnil
    exact hne (List.append_eq_nil_iff.mp hnil).2

theorem map_dropReturn (hs : s.Sound) {lines : List Line} (h : ∀ line ∈ lines, line ∈ s.lines) :
    (lines.map (· ++ s.lineEnding.return?)).map dropReturn = lines := by
  rw [List.map_map]
  exact (List.map_congr_left fun line hline => dropReturn_append_return? hs (h line hline)).trans
    (List.map_id lines)

/-- A text ends with a newline if its last piece, behind others, is empty. -/
theorem endsWithNewline_iff {text last : List Char} {front : List Line}
    (h : splitOn '\n' text = front ++ [last]) :
    endsWithNewline text = true ↔ front ≠ [] ∧ last = [] := by
  have hnewline : '\n' ∉ last := notMem_of_mem_splitOn (h ▸ List.mem_concat_self)
  rw [← join_splitOn '\n' text, h]
  by_cases hlast : last = []
  · subst hlast
    cases front with
    | nil => simp [join, endsWithNewline]
    | cons first front =>
      rw [← join_append_ending _ (List.cons_ne_nil first front)]
      simp [endsWithNewline]
  · simp [endsWithNewline_join_concat hlast hnewline, hlast]

theorem eq_nil_iff_pieces {text last : List Char} {front : List Line}
    (h : splitOn '\n' text = front ++ [last]) : text = [] ↔ front = [] ∧ last = [] := by
  constructor
  · rintro rfl
    obtain ⟨rfl, hlast⟩ := List.append_eq_singleton_iff.mp h.symm |>.resolve_right (by simp)
    exact ⟨rfl, by simpa using hlast⟩
  · rintro ⟨rfl, rfl⟩
    rw [← join_splitOn '\n' text, h]
    rfl

/-- The lines of a text are its pieces, each without a carriage return at its end; the last one is no
line if it is empty. -/
theorem linesOf_eq {text last : List Char} {front : List Line}
    (h : splitOn '\n' text = front ++ [last]) :
    linesOf text = front.map dropReturn ++ if last = [] then [] else [dropReturn last] := by
  have hends : (text.isEmpty || endsWithNewline text) = true ↔ last = [] := by
    rw [Bool.or_eq_true, List.isEmpty_iff, eq_nil_iff_pieces h, endsWithNewline_iff h]
    tauto
  rw [linesOf, h]
  by_cases hlast : last = []
  · rw [if_pos (hends.mpr hlast), if_pos hlast, List.dropLast_concat, List.append_nil]
  · rw [if_neg (mt hends.mp hlast), if_neg hlast, List.map_append, List.map_singleton]

/-- Without a trailing newline the last line loses a carriage return at its end, and is no line if it
is empty. -/
theorem linesOf_renderChars_concat {front : List Line} {last : Line}
    (htrailing : s.trailingNewline = false) (hlines : s.lines = front ++ [last])
    (hnewline : ∀ line ∈ s.lines, '\n' ∉ line)
    (hfront : ∀ line ∈ front, dropReturn (line ++ s.lineEnding.return?) = line) :
    linesOf s.renderChars = front ++ if last = [] then [] else [dropReturn last] := by
  have hdrop : (front.map (· ++ s.lineEnding.return?)).map dropReturn = front := by
    rw [List.map_map]
    exact (List.map_congr_left hfront).trans (List.map_id front)
  rw [linesOf_eq (renderChars_concat htrailing hlines hnewline).2, hdrop]

theorem linesOf_renderChars (hs : s.Sound) : linesOf s.renderChars = s.lines := by
  cases htrailing : s.trailingNewline with
  | true =>
    have hempty : s.renderChars.isEmpty = false := by simp [renderChars_ne_nil hs]
    rw [linesOf, hempty, Bool.false_or, endsWithNewline_renderChars hs, htrailing,
      splitOn_of_trailing hs htrailing, if_pos rfl, List.dropLast_concat,
      map_dropReturn hs fun _ h => h]
  | false =>
    obtain ⟨front, last, hlines, hne, hreturn⟩ := exists_last hs htrailing
    rw [linesOf_renderChars_concat htrailing hlines hs.newline_notMem fun line hline =>
      dropReturn_append_return? hs (by simp [hlines, hline]), if_neg hne, dropReturn_of_ne hreturn,
      hlines]

/-! ## The line ending -/

theorem detect_eq (text : List Char) :
    LineEnding.detect text = if ['\r', '\n'] <:+: text then .crlf else .lf := by
  simp only [LineEnding.detect, containsText_iff]

/-- A carriage return before a line feed ends a piece, which is not the last one. -/
theorem exists_return_of_infix {text : List Char} (h : ['\r', '\n'] <:+: text) :
    ∃ piece ∈ (splitOn '\n' text).dropLast, piece.getLast? = some '\r' := by
  obtain ⟨a, b, rfl⟩ := h
  have htext : a ++ ['\r', '\n'] ++ b = (a ++ ['\r']) ++ '\n' :: b := by simp
  obtain ⟨front, last, hlast⟩ := exists_splitOn_concat (show '\r' ≠ '\n' by decide) a
  have hb : splitOn '\n' b ≠ [] := splitWhere_ne_nil _ _
  rw [htext, splitOn_append_cons, hlast, List.dropLast_append_of_ne_nil hb]
  exact ⟨last ++ ['\r'], by simp, by simp⟩

/-- And such a piece makes the file a CRLF file. -/
theorem return_infix_iff {text last : List Char} {front : List Line}
    (h : splitOn '\n' text = front ++ [last]) :
    ['\r', '\n'] <:+: text ↔ ∃ piece ∈ front, piece.getLast? = some '\r' := by
  constructor
  · intro hcrlf
    simpa [h] using exists_return_of_infix hcrlf
  · rintro ⟨piece, hpiece, hend⟩
    obtain ⟨p, rfl⟩ := List.getLast?_eq_some_iff.mp hend
    obtain ⟨f, g, rfl⟩ := List.append_of_mem hpiece
    -- A line feed follows the piece, since it is not the last one.
    obtain ⟨a, b, hjoin, hb⟩ := @exists_append_of_join '\n' (p ++ ['\r']) (g ++ [last]) f
    obtain ⟨tail, rfl⟩ := hb.resolve_left fun h => by simp at h
    refine ⟨a ++ p, tail, ?_⟩
    rw [← join_splitOn '\n' text, h, List.append_assoc f, List.cons_append, hjoin]
    simp

theorem detect_renderChars (hs : s.Sound) : LineEnding.detect s.renderChars = s.lineEnding := by
  rw [detect_eq]
  cases hending : s.lineEnding with
  | lf =>
    refine if_neg fun hcrlf => ?_
    obtain ⟨piece, hpiece, hreturn⟩ := exists_return_of_infix hcrlf
    have hline : piece ∈ s.lines := by
      cases htrailing : s.trailingNewline with
      | true =>
        rw [splitOn_of_trailing hs htrailing, List.dropLast_concat, hending] at hpiece
        simpa [LineEnding.return?] using hpiece
      | false =>
        obtain ⟨front, last, hlines, -⟩ := exists_last hs htrailing
        rw [(renderChars_concat htrailing hlines hs.newline_notMem).2, List.dropLast_concat,
          hending] at hpiece
        simp only [LineEnding.return?, List.append_nil, List.map_id'] at hpiece
        exact hlines ▸ List.mem_append_left _ hpiece
    exact hs.return_of_lf hending piece hline hreturn
  | crlf =>
    refine if_pos ?_
    have hchars : ['\r', '\n'] = s.lineEnding.chars := by rw [hending]; rfl
    rw [hchars]
    cases htrailing : s.trailingNewline with
    | true =>
      rw [renderChars_of_trailing htrailing]
      exact (List.suffix_append _ _).isInfix
    | false =>
      have hlength := (hs.of_crlf hending).resolve_left (by simp [htrailing])
      rw [renderChars, if_neg (by simp [htrailing]), List.append_nil]
      match s.lines, hlength with
      | line :: next :: lines, _ => exact ⟨line, join s.lineEnding.chars (next :: lines), rfl⟩

theorem lines_parse_render (s : SourceText) : (parse s.render).lines = linesOf s.renderChars :=
  congrArg linesOf String.toList_ofList

/-- The lines of a text put together from sound lines are these lines. -/
theorem parse_render (h : s.Sound) : parse s.render = s := by
  have hchars : s.render.toList = s.renderChars := String.toList_ofList
  rw [parse, hchars, linesOf_renderChars h, detect_renderChars h, endsWithNewline_renderChars h]

/-! ## The lines of a text -/

theorem linesOf_ne_nil {text : List Char} (h : linesOf text ≠ []) : text ≠ [] := by
  rintro rfl
  exact h rfl

/-- A line is what a piece is without a carriage return. -/
theorem exists_piece_of_mem_linesOf {text : List Char} {line : Line} (h : line ∈ linesOf text) :
    ∃ piece ∈ splitOn '\n' text, line = dropReturn piece := by
  obtain ⟨piece, hpiece, rfl⟩ := List.mem_map.mp h
  refine ⟨piece, ?_, rfl⟩
  split_ifs at hpiece
  · exact List.dropLast_subset _ hpiece
  · exact hpiece

theorem newline_notMem_of_mem_lines {text : String} {line : Line} (h : line ∈ (parse text).lines) :
    '\n' ∉ line := by
  obtain ⟨piece, hpiece, rfl⟩ := exists_piece_of_mem_linesOf h
  exact fun hmem => notMem_of_mem_splitOn hpiece (mem_of_mem_dropReturn hmem)

/-- Without a trailing newline the last piece is a line as it is. -/
theorem exists_linesOf_of_not_trailing {text : List Char} (hne : text ≠ [])
    (hreturn : text.getLast? ≠ some '\r') (hnewline : endsWithNewline text = false) :
    ∃ front last, linesOf text = front ++ [last] ∧ last ≠ [] ∧ last.getLast? ≠ some '\r' := by
  obtain ⟨s, c, rfl⟩ := (List.eq_nil_or_concat text).resolve_left hne
  rw [List.concat_eq_append] at hreturn hnewline ⊢
  have hc : c ≠ '\n' := by simpa [endsWithNewline] using hnewline
  have hc' : c ≠ '\r' := by simpa using hreturn
  obtain ⟨front, last, hsplit⟩ := exists_splitOn_concat hc s
  refine ⟨front.map dropReturn, last ++ [c], ?_, by simp, by simpa using hc'⟩
  rw [linesOf_eq hsplit, if_neg (by simp), dropReturn_of_ne (by simpa using hc')]

theorem lineEnding_parse_eq_crlf {text : String} :
    (parse text).lineEnding = .crlf ↔ ['\r', '\n'] <:+: text.toList := by
  rw [parse, detect_eq]
  split_ifs with hcrlf <;> simp [hcrlf]

/-- A text that goes on behind a line ending has two lines. -/
theorem two_le_length_lines {text : String} (hending : (parse text).lineEnding = .crlf)
    (htrailing : (parse text).trailingNewline = false) : 2 ≤ (parse text).lines.length := by
  have hmem : '\n' ∈ text.toList := (lineEnding_parse_eq_crlf.mp hending).subset (by simp)
  have hempty : text.toList.isEmpty = false :=
    List.isEmpty_eq_false_iff.mpr (List.ne_nil_of_mem hmem)
  have hends : endsWithNewline text.toList = false := htrailing
  rw [parse, linesOf, hempty, hends, if_neg (by decide), List.length_map]
  exact two_le_length_splitOn hmem

/-- The lines of a text that does not end in a carriage return can be put together again. -/
theorem sound_parse {text : String} (hreturn : text.toList.getLast? ≠ some '\r')
    (hlines : (parse text).lines ≠ []) : (parse text).Sound where
  lines_ne_nil := hlines
  newline_notMem _ hline := newline_notMem_of_mem_lines hline
  last_line htrailing line hline := by
    obtain ⟨front, last, hlast, hne, hend⟩ :=
      exists_linesOf_of_not_trailing (linesOf_ne_nil hlines) hreturn htrailing
    obtain rfl : last = line := by simpa [parse, hlast] using hline
    exact ⟨hne, hend⟩
  return_of_lf hending line hline := by
    have hcrlf : ¬ ['\r', '\n'] <:+: text.toList := by
      rw [← lineEnding_parse_eq_crlf, hending]
      decide
    obtain ⟨piece, hpiece, rfl⟩ := exists_piece_of_mem_linesOf hline
    have hpiece' : piece.getLast? ≠ some '\r' := by
      intro hend
      obtain ⟨front, hfront⟩ := List.getLast?_eq_some_iff.mp hend
      obtain ⟨a, b, htext, rfl | ⟨tail, rfl⟩⟩ := exists_append_of_mem_splitOn hpiece
      · exact hreturn (by simp [htext, hfront])
      · exact hcrlf ⟨a ++ front, tail, by simp [htext, hfront]⟩
    rwa [dropReturn_of_ne hpiece']
  of_crlf hending := by
    cases htrailing : (parse text).trailingNewline with
    | true => exact Or.inl rfl
    | false => exact Or.inr (two_le_length_lines hending htrailing)

/-- A text that ends in a carriage return has a last line without it, which no line feed follows. -/
theorem exists_lines_of_return {text : String} (hreturn : text.toList.getLast? = some '\r') :
    ∃ front last, (parse text).lines = front ++ [last] ∧ (parse text).trailingNewline = false ∧
      (∀ line ∈ (parse text).lines, '\n' ∉ line) ∧
      ((parse text).lineEnding = .lf → ∀ line ∈ front, line.getLast? ≠ some '\r') := by
  obtain ⟨s, hs⟩ := List.getLast?_eq_some_iff.mp hreturn
  obtain ⟨front, last, hsplit⟩ := exists_splitOn_concat (show '\r' ≠ '\n' by decide) s
  rw [← hs] at hsplit
  have hends : endsWithNewline text.toList = false := by simp [endsWithNewline, hreturn]
  have hlines : (parse text).lines = front.map dropReturn ++ [last] := by
    rw [parse, linesOf_eq hsplit, if_neg (by simp), dropReturn_concat]
  refine ⟨front.map dropReturn, last, hlines, hends, fun _ => newline_notMem_of_mem_lines,
    fun hending line hline => ?_⟩
  obtain ⟨piece, hpiece, rfl⟩ := List.mem_map.mp hline
  have hpiece' : piece.getLast? ≠ some '\r' := by
    intro hend
    have hcrlf := (return_infix_iff hsplit).mpr ⟨piece, hpiece, hend⟩
    cases hending.symm.trans (lineEnding_parse_eq_crlf.mpr hcrlf)
  rwa [dropReturn_of_ne hpiece']

/-! ## Inserting lines -/

/-- A line that is inserted above others leaves the lines sound. -/
theorem Sound.insert (hs : s.Sound) {index : Nat} {line : Line} (hindex : index < s.lines.length)
    (hnewline : '\n' ∉ line) (hreturn : line.getLast? ≠ some '\r') :
    (s.insert index line).Sound := by
  have hmem : ∀ l ∈ s.lines.insertIdx index line, l = line ∨ l ∈ s.lines := fun l hl =>
    (List.mem_insertIdx (by omega)).mp hl
  have hlast : (s.lines.insertIdx index line).getLast? = s.lines.getLast? := by
    rw [List.getLast?_eq_getElem?, List.getLast?_eq_getElem?,
      List.length_insertIdx_of_le_length (by omega), List.getElem?_insertIdx_of_gt (by omega)]
    rfl
  constructor
  · exact List.ne_nil_of_mem ((List.mem_insertIdx (by omega)).mpr (Or.inl rfl))
  · intro l hl
    rcases hmem l hl with rfl | hl
    · exact hnewline
    · exact hs.newline_notMem l hl
  · intro htrailing l hl
    change l ∈ (s.lines.insertIdx index line).getLast? at hl
    rw [hlast] at hl
    exact hs.last_line htrailing l hl
  · intro hending l hl
    rcases hmem l hl with rfl | hl
    · exact hreturn
    · exact hs.return_of_lf hending l hl
  · intro hending
    refine (hs.of_crlf hending).imp id fun hlength => ?_
    exact hlength.trans List.length_le_length_insertIdx

end SourceText

/-! ## Sources of plain lines -/

/-- The source with these lines, each followed by a line feed. -/
def plainSource (lines : List String) : SourceText := ⟨lines.map String.toList, .lf, true⟩

theorem parse_plainSource {lines : List String} (hne : lines ≠ [])
    (hplain : ∀ line ∈ lines, '\n' ∉ line.toList ∧ '\r' ∉ line.toList) :
    SourceText.parse (plainSource lines).render = plainSource lines := by
  refine SourceText.parse_render ⟨by simpa [plainSource] using hne, ?_, by simp [plainSource], ?_,
    by simp [plainSource]⟩
  · intro line hline
    obtain ⟨text, htext, rfl⟩ := List.mem_map.mp hline
    exact (hplain text htext).1
  · intro _ line hline hlast
    obtain ⟨text, htext, rfl⟩ := List.mem_map.mp hline
    exact (hplain text htext).2 (List.mem_of_getLast? hlast)

theorem toList_render_plainSource {lines : List String} (hne : lines ≠ []) :
    (plainSource lines).render.toList = lines.flatMap fun line => line.toList ++ ['\n'] := by
  have hjoin : ∀ {lines : List Line}, lines ≠ [] →
      join ['\n'] lines ++ ['\n'] = lines.flatMap (· ++ ['\n']) := by
    intro lines hne
    induction lines with
    | nil => exact absurd rfl hne
    | cons line lines ih =>
      cases lines with
      | nil => simp [join]
      | cons next lines =>
        rw [join, List.append_assoc, ih (List.cons_ne_nil _ _)]
        simp
  have hchars : (plainSource lines).render.toList = (plainSource lines).renderChars :=
    String.toList_ofList
  rw [hchars, SourceText.renderChars_of_trailing rfl]
  refine (hjoin (by simpa [plainSource] using hne)).trans ?_
  simp [plainSource, List.flatMap_map]

end PluginWorkshop.Php
