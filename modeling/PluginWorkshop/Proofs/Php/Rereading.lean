import PluginWorkshop.Proofs.Php.TrailingBlanks

/-!
# Lines that are read again

An edit is planned on the lines that are read of a text, and the text of the edited lines is read
for the next one. `Rereads` says what has to come back of the lines for both edits to be planned in
either order. Sound lines are read as they are.

A text that ends in a carriage return loses it when it is written again, and its last line may lose
one more, or vanish, when it is read again (`Ragged`). Neither moves the places of a wiring or the
line of the plugin object (`Ragged.rereads`). But the last line may assign the object because of the
carriage return; so a variable that is not bound stays so, and one that is bound may not.
-/

namespace PluginWorkshop.Php

open Text

variable {path : Path} {s r : SourceText} {front lines : List Line} {last line old : Line}
  {rows : List Row} {row : Row} {property statement : Line} {insertions : List Insertion}
  {marker : Line} {test : Line → Bool} {index i n : Nat}

/-- `r` is read of the text of the lines `s`, and of the text of `s` with an edit `r` with the same
edit. -/
structure Rereads (s r : SourceText) : Prop where
  parse_render : SourceText.parse s.render = r
  parse_insertLines : ∀ {insertions}, Insertable s insertions →
    SourceText.parse (insertLines s insertions).render = insertLines r insertions
  parse_bindLine : ∀ {index name line}, isIdentifier name = true → s.lines[index]? = some line →
    'n' ∈ line → ∃ line', r.lines[index]? = some line' ∧
      SourceText.parse (s.replace index (bindLine name line)).render =
        r.replace index (bindLine name line')
  wiringInsertions_eq : ∀ {path property statement insertions}, ClassTexts property statement →
    wiringInsertions path s.lines property statement = .ok insertions →
      wiringInsertions path r.lines property statement = .ok insertions
  locate_eq : ∀ {index}, bareInstantiation.locate s.lines = .found index →
    bareInstantiation.locate r.lines = .found index
  findBinding?_eq_none : ∀ {variableName}, findBinding? s.lines variableName = none →
    findBinding? r.lines variableName = none

/-- Sound lines are read as they are. -/
theorem SourceText.Sound.rereads (hs : s.Sound) : Rereads s s where
  parse_render := SourceText.parse_render hs
  parse_insertLines h := SourceText.parse_render (h.sound hs)
  parse_bindLine hname hline hmem :=
    ⟨_, hline, SourceText.parse_render (sound_bindLine hs hname hline hmem)⟩
  wiringInsertions_eq _ h := h
  locate_eq h := h
  findBinding?_eq_none h := h

/-! ## An empty line at the end -/

section Concat

theorem getElem?_of_concat {α : Type} {l : List α} {x y : α} (h : (l ++ [x])[i]? = some y)
    (hne : y ≠ x) : l[i]? = some y := by
  rw [List.getElem?_append] at h
  split_ifs at h with hi
  · exact h
  · rw [List.getElem?_singleton] at h
    split_ifs at h
    exact absurd (Option.some.inj h).symm hne

theorem uniqueMarker_concat (hmarker : containsText marker row.code = false) (rows : List Row) :
    uniqueMarker marker (rows ++ [row]) = uniqueMarker marker rows := by
  have hlines : markerLines marker (rows ++ [row]) = markerLines marker rows := by
    rw [markerLines, List.zipIdx_append, List.filter_append, List.zipIdx_singleton,
      List.filter_cons_of_neg (by simp [hmarker]), List.filter_nil, List.append_nil, markerLines]
  rw [uniqueMarker, uniqueMarker, hlines]

theorem propertyAnchor_of_concat (h : propertyAnchor (rows ++ [⟨[], []⟩]) = .found n) :
    propertyAnchor rows = .found n := by
  obtain ⟨line, hmarker, hclimb⟩ := propertyAnchor_eq_found.mp h
  rw [uniqueMarker_concat rfl] at hmarker
  obtain ⟨row, hrow, -⟩ := containsText_of_uniqueMarker hmarker
  rw [List.take_append_of_le_length (List.getElem?_eq_some_iff.mp hrow).1.le] at hclimb
  exact propertyAnchor_eq_found.mpr ⟨line, hmarker, hclimb⟩

theorem Body.of_concat {opening closing index : Nat}
    (h : Body (rows ++ [⟨[], []⟩]) index opening closing) : Body rows index opening closing := by
  have hmarker := h.marker_eq
  rw [uniqueMarker_concat rfl] at hmarker
  obtain ⟨row, hrow, -⟩ := containsText_of_uniqueMarker hmarker
  have hlt : index < (rows.map Row.code).length := by
    rw [List.length_map]
    exact (List.getElem?_eq_some_iff.mp hrow).1
  refine ⟨hmarker, ?_, h.closing_ne, ?_⟩
  · have hbody := h.body_eq
    have hempty : ∀ start, placedFrom start [([] : Line)] = [] := fun _ => rfl
    rw [List.map_append, List.map_singleton, methodBody, List.getElem?_append_left hlt,
      List.drop_append_of_le_length hlt] at hbody
    simp only [← List.cons_append, placedFrom_append _ (_ :: _), hempty, List.append_nil] at hbody
    exact hbody
  · have halone := h.alone
    rw [List.map_append, List.map_singleton, Option.map_eq_some_iff] at halone
    obtain ⟨code, hcode, htrim⟩ := halone
    have hne : code ≠ [] := by
      rintro rfl
      cases htrim
    rw [getElem?_of_concat hcode hne]
    exact congrArg some htrim

theorem initializerEnd_of_concat (h : initializerEnd (rows ++ [⟨[], []⟩]) = .found n) :
    initializerEnd rows = .found n := by
  obtain ⟨marker, opening, hbody⟩ := initializerEnd_eq_found.mp h
  exact initializerEnd_eq_found.mpr ⟨marker, opening, hbody.of_concat⟩

theorem isPresent_concat {text line : Line} (h : trim line ≠ text) (lines : List Line) :
    isPresent text (lines ++ [line]) = isPresent text lines := by
  rw [isPresent, List.any_append, List.any_cons, beq_eq_false_iff_ne.mpr h, isPresent]
  simp

theorem rows_concat (lines : List Line) (line : Line) : Php.rows (lines ++ [line]) =
    Php.rows lines ++ [⟨line, (maskLine (stateAfter .code lines) line).1⟩] := by
  rw [rows_eq, rowsFrom_append]
  rfl

theorem ClassTexts.ne_nil (h : ClassTexts property statement) : property ≠ [] ∧ statement ≠ [] := by
  obtain ⟨variableName, -, rfl⟩ := h.property_eq
  obtain ⟨rest, rfl⟩ := h.statement_eq
  exact ⟨by simp, by simp⟩

theorem wiringInsertions_of_concat (htexts : ClassTexts property statement)
    (h : wiringInsertions path (lines ++ [[]]) property statement = .ok insertions) :
    wiringInsertions path lines property statement = .ok insertions := by
  have hrows : Php.rows (lines ++ [[]]) = Php.rows lines ++ [⟨[], []⟩] := rows_concat lines []
  obtain ⟨D, A, hdeclare, hassign⟩ := exists_places_of_wiringInsertions h
  rw [wiringInsertions_eq path hdeclare hassign] at h
  rw [hrows] at hdeclare hassign
  have hassign := initializerEnd_of_concat hassign
  have hgetD : ∀ i : Nat, (lines ++ [[]])[i]?.getD [] = lines[i]?.getD [] := by
    intro i
    rw [List.getElem?_append]
    split_ifs with hi
    · rfl
    · rw [List.getElem?_singleton, List.getElem?_eq_none (Nat.le_of_not_lt hi)]
      split_ifs <;> rfl
  have hle : A ≤ lines.length := by
    obtain ⟨marker, opening, hbody⟩ := initializerEnd_eq_found.mp hassign
    have halone := hbody.alone
    rw [List.getElem?_map, Option.map_map, Option.map_eq_some_iff] at halone
    obtain ⟨row, hrow, -⟩ := halone
    have hlt := (List.getElem?_eq_some_iff.mp hrow).1
    rw [length_rows] at hlt
    exact hlt.le
  have hindent : bodyIndentation (lines ++ [[]]) A = bodyIndentation lines A := by
    rw [bodyIndentation, bodyIndentation, hgetD, List.take_append_of_le_length hle]
  have hmissing : ∀ text, text ≠ [] → missing text (lines ++ [[]]) = missing text lines := by
    intro text hne
    have hempty : trim [] ≠ text := hne.symm
    rw [missing, missing, isPresent_concat hempty]
  rw [wiringInsertions_eq path (propertyAnchor_of_concat hdeclare) hassign, ← hgetD, ← hindent,
    ← hmissing property htexts.ne_nil.1, ← hmissing statement htexts.ne_nil.2]
  exact h

/-- A last line is met if the blocks above it are closed. -/
theorem selects_concat : Selects test (rows ++ [row]) i ↔ Selects test rows i ∨
    i = rows.length ∧ braceBalance (lineStart rows rows.length) = 0 ∧ test row.code = true := by
  rcases Nat.lt_trichotomy i rows.length with hi | rfl | hi
  · rw [Selects, List.getElem?_append_left hi, lineStart, List.take_append_of_le_length hi.le]
    exact (or_iff_left fun h => hi.ne h.1).symm
  · have hnone : ¬ Selects test rows rows.length := by
      rintro ⟨_, hrow, -⟩
      exact absurd (List.getElem?_eq_some_iff.mp hrow).1 (Nat.lt_irrefl _)
    rw [or_iff_right hnone, Selects, List.getElem?_concat_length, lineStart,
      List.take_append_of_le_length (Nat.le_refl _)]
    simp [lineStart]
  · refine iff_of_false ?_ ?_
    · rintro ⟨_, hrow, -⟩
      have hlt := (List.getElem?_eq_some_iff.mp hrow).1
      rw [List.length_append, List.length_singleton] at hlt
      omega
    · rintro (⟨_, hrow, -⟩ | ⟨rfl, -⟩)
      · exact absurd (List.getElem?_eq_some_iff.mp hrow).1 hi.asymm
      · exact absurd hi (Nat.lt_irrefl _)

end Concat

/-! ## Texts that end in a carriage return -/

/-- Lines of which the last one, which no line feed follows, may be empty or end in a carriage
return. -/
structure Ragged (s : SourceText) (front : List Line) (last : Line) : Prop where
  lines_eq : s.lines = front ++ [last]
  trailing : s.trailingNewline = false
  newline_notMem : ∀ line ∈ s.lines, '\n' ∉ line
  return_of_lf : s.lineEnding = .lf → ∀ line ∈ front, line.getLast? ≠ some '\r'
  front_ne_nil : s.lineEnding = .crlf ∨ last = [] → front ≠ []

/-- What is read of the text of such lines: the last one without a carriage return, and no line if
it is empty. -/
def SourceText.reread (s : SourceText) (front : List Line) (last : Line) : SourceText where
  lines := front ++ if last = [] then [] else [dropReturn last]
  lineEnding := s.lineEnding
  trailingNewline := last.isEmpty

namespace Ragged

/-- The lines of a text that ends in a carriage return are of this kind, unless there is nothing
else in it. -/
theorem parse {text : String} (hreturn : text.toList.getLast? = some '\r')
    (hne : (SourceText.parse text).lines ≠ [[]]) :
    ∃ front last, Ragged (SourceText.parse text) front last := by
  obtain ⟨front, last, hlines, htrailing, hnewlines, hfront⟩ :=
    SourceText.exists_lines_of_return hreturn
  refine ⟨front, last, hlines, htrailing, hnewlines, hfront, ?_⟩
  rintro (hending | rfl) rfl
  · have hlength := SourceText.two_le_length_lines hending htrailing
    rw [hlines] at hlength
    simp at hlength
  · exact hne hlines

theorem dropReturn_front (h : Ragged s front last) (hline : line ∈ front) :
    dropReturn (line ++ s.lineEnding.return?) = line :=
  LineEnding.dropReturn_append_return? fun hending => h.return_of_lf hending line hline

theorem renderChars_eq (h : Ragged s front last) :
    s.renderChars = join s.lineEnding.chars (front ++ [last]) ∧
      splitOn '\n' s.renderChars = front.map (· ++ s.lineEnding.return?) ++ [last] :=
  SourceText.renderChars_concat h.trailing h.lines_eq h.newline_notMem

theorem detect_renderChars (h : Ragged s front last) :
    LineEnding.detect s.renderChars = s.lineEnding := by
  rw [SourceText.detect_eq]
  cases hending : s.lineEnding with
  | lf =>
    refine if_neg fun hcrlf => ?_
    obtain ⟨piece, hpiece, hreturn⟩ := SourceText.exists_return_of_infix hcrlf
    rw [h.renderChars_eq.2, List.dropLast_concat, hending] at hpiece
    simp only [LineEnding.return?, List.append_nil, List.map_id'] at hpiece
    exact h.return_of_lf hending piece hpiece hreturn
  | crlf =>
    refine if_pos ?_
    obtain ⟨first, rest, rfl⟩ := List.exists_cons_of_ne_nil (h.front_ne_nil (Or.inl hending))
    rw [h.renderChars_eq.1, hending, List.cons_append, join_cons_of_ne_nil (by simp)]
    exact ⟨first, _, rfl⟩

/-- An empty last line is taken for the end of the one before it. -/
theorem endsWithNewline_renderChars (h : Ragged s front last) :
    endsWithNewline s.renderChars = last.isEmpty := by
  rw [h.renderChars_eq.1]
  by_cases hlast : last = []
  · subst hlast
    rw [endsWithNewline, ← SourceText.join_append_ending _ (h.front_ne_nil (Or.inr rfl)),
      LineEnding.chars_eq]
    simp
  · rw [List.isEmpty_eq_false_iff.mpr hlast]
    exact SourceText.endsWithNewline_join_concat hlast
      (h.newline_notMem last (by simp [h.lines_eq])) _ _

theorem parse_render (h : Ragged s front last) :
    SourceText.parse s.render = s.reread front last := by
  have hchars : s.render.toList = s.renderChars := String.toList_ofList
  have hlines := SourceText.linesOf_renderChars_concat h.trailing h.lines_eq h.newline_notMem
    fun _ => h.dropReturn_front
  rw [SourceText.parse, hchars, hlines, h.detect_renderChars, h.endsWithNewline_renderChars]
  rfl

/-! ### Edits -/

/-- A line may be inserted before the lines are written or afterwards. -/
theorem insert (h : Ragged s front last) (hindex : index ≤ front.length) (hnewline : '\n' ∉ line)
    (hreturn : line.getLast? ≠ some '\r') :
    Ragged (s.insert index line) (front.insertIdx index line) last ∧
      (s.insert index line).reread (front.insertIdx index line) last =
        (s.reread front last).insert index line := by
  have hmem : ∀ l ∈ front.insertIdx index line, l = line ∨ l ∈ front := fun l hl =>
    (List.mem_insertIdx hindex).mp hl
  have hlines : ∀ rest : List Line,
      (front ++ rest).insertIdx index line = front.insertIdx index line ++ rest := by
    intro rest
    obtain ⟨a, b, rfl, rfl⟩ := exists_append_of_le hindex
    rw [List.append_assoc, insertIdx_length_append, insertIdx_length_append]
    simp
  refine ⟨⟨?_, h.trailing, ?_, ?_, ?_⟩, ?_⟩
  · rw [SourceText.insert, h.lines_eq]
    exact hlines [last]
  · intro l hl
    rw [SourceText.insert, h.lines_eq] at hl
    dsimp only at hl
    rw [hlines, List.mem_append] at hl
    rcases hl with hl | hl
    · rcases hmem l hl with rfl | hl
      · exact hnewline
      · exact h.newline_notMem l (by simp [h.lines_eq, hl])
    · exact h.newline_notMem l (by simp [h.lines_eq, List.mem_singleton.mp hl])
  · intro hending l hl
    rcases hmem l hl with rfl | hl
    · exact hreturn
    · exact h.return_of_lf hending l hl
  · intro hshape hnil
    have hlength := congrArg List.length hnil
    rw [List.length_insertIdx_of_le_length hindex] at hlength
    simp at hlength
  · rw [SourceText.reread, ← hlines]
    rfl

theorem insertLines {insertions : List Insertion} (h : Ragged s front last)
    (hinsertable : Insertable s insertions) :
    ∃ front', Ragged (Php.insertLines s insertions) front' last ∧
      (Php.insertLines s insertions).reread front' last =
        Php.insertLines (s.reread front last) insertions := by
  induction insertions with
  | nil => exact ⟨front, h, rfl⟩
  | cons i insertions ih =>
    obtain ⟨front', hragged, hreread⟩ := ih hinsertable.tail
    have hlt := hinsertable.head_lt
    rw [hragged.lines_eq, List.length_append, List.length_singleton] at hlt
    obtain ⟨hragged', hreread'⟩ := hragged.insert (Nat.le_of_lt_succ hlt)
      (hinsertable.newline_notMem i List.mem_cons_self)
      (hinsertable.getLast?_ne i List.mem_cons_self)
    refine ⟨_, hragged', ?_⟩
    rw [insertLines_cons, insertLines_cons, ← hreread]
    exact hreread'

theorem newline_notMem_replace (h : Ragged s front last) (hnewline : '\n' ∉ line) (index : Nat) :
    ∀ l ∈ (s.replace index line).lines, '\n' ∉ l := by
  intro l hl
  rcases List.mem_or_eq_of_mem_set hl with hl | rfl
  · exact h.newline_notMem l hl
  · exact hnewline

/-- So may a line above the last one be replaced by one that ends in the same way. -/
theorem replace_front (h : Ragged s front last) (hold : front[index]? = some old)
    (hnewline : '\n' ∉ line) (hlast : line.getLast? = old.getLast?) :
    Ragged (s.replace index line) (front.set index line) last ∧
      (s.replace index line).reread (front.set index line) last =
        (s.reread front last).replace index line := by
  have hlt := (List.getElem?_eq_some_iff.mp hold).1
  refine ⟨⟨?_, h.trailing, h.newline_notMem_replace hnewline index, fun hending l hl => ?_, ?_⟩, ?_⟩
  · rw [SourceText.replace, h.lines_eq]
    exact List.set_append_left _ _ hlt
  · rcases List.mem_or_eq_of_mem_set hl with hl | rfl
    · exact h.return_of_lf hending l hl
    · rw [hlast]
      exact h.return_of_lf hending old (List.mem_of_getElem? hold)
  · intro _
    rw [Ne, List.set_eq_nil_iff]
    exact List.ne_nil_of_mem (List.mem_of_getElem? hold)
  · rw [SourceText.reread, ← List.set_append_left _ _ hlt]
    rfl

theorem replace_last (h : Ragged s front last) (hlast : last ≠ []) (hnewline : '\n' ∉ line)
    (hne : line ≠ []) :
    Ragged (s.replace front.length line) front line ∧
      (s.replace front.length line).reread front line =
        (s.reread front last).replace front.length (dropReturn line) := by
  refine ⟨⟨?_, h.trailing, h.newline_notMem_replace hnewline _, h.return_of_lf, ?_⟩, ?_⟩
  · rw [SourceText.replace, h.lines_eq]
    exact set_length_append front [] last line
  · exact fun hshape => h.front_ne_nil (hshape.imp id fun hnil => absurd hnil hne)
  · simp only [SourceText.reread, SourceText.replace, if_neg hlast, if_neg hne, set_length_append,
      List.isEmpty_eq_false_iff.mpr hlast, List.isEmpty_eq_false_iff.mpr hne]

/-- Where an assignment is put on a line, it is put on the line that is read again. -/
theorem parse_bindLine {name : Line} (h : Ragged s front last) (hname : isIdentifier name = true)
    (hline : s.lines[index]? = some line) (hmem : 'n' ∈ line) :
    ∃ line', (s.reread front last).lines[index]? = some line' ∧
      SourceText.parse (s.replace index (bindLine name line)).render =
        (s.reread front last).replace index (bindLine name line') := by
  have hlast := getLast?_bindLine name hmem
  have hnewline : '\n' ∉ bindLine name line := by
    intro hbad
    rcases mem_bindLine hbad with hbad | hbad
    · have hnone : '\n' ∉ name := notMem_of_isIdentifier (by decide) hname
      simp [hnone] at hbad
    · exact h.newline_notMem line (List.mem_of_getElem? hline) hbad
  have hlt := (List.getElem?_eq_some_iff.mp hline).1
  rw [h.lines_eq] at hline hlt
  rcases Nat.lt_or_ge index front.length with hindex | hindex
  · rw [List.getElem?_append_left hindex] at hline
    obtain ⟨hragged, hreread⟩ := h.replace_front hline hnewline hlast
    exact ⟨line, (List.getElem?_append_left hindex).trans hline, hragged.parse_render.trans hreread⟩
  · obtain rfl : index = front.length := by
      rw [List.length_append, List.length_singleton] at hlt
      omega
    obtain rfl : last = line := by simpa using hline
    have hne : last ≠ [] := List.ne_nil_of_mem hmem
    obtain ⟨hragged, hreread⟩ := h.replace_last hne hnewline
      (ne_nil_of_getLast?_eq hlast hne)
    refine ⟨dropReturn last, ?_, ?_⟩
    · simp [SourceText.reread, hne]
    · rw [hragged.parse_render, hreread, dropReturn_bindLine]
      exact hmem

/-! ### Searches -/

/-- A test meets the lines again that it met if the last line satisfies it without the carriage
return too, and no empty line does. -/
theorem selects_reread (h : Ragged s front last) (hnil : test [] = false)
    (htest : ∀ state line, test (maskLine state line).1 = true →
      test (maskLine state (dropReturn line)).1 = true)
    (hselects : Selects test (Php.rows s.lines) i) :
    Selects test (Php.rows (s.reread front last).lines) i := by
  rw [h.lines_eq, rows_concat, selects_concat] at hselects
  rw [SourceText.reread]
  split_ifs with hlast
  · subst hlast
    rw [List.append_nil]
    refine hselects.resolve_right fun hlast => ?_
    exact absurd hlast.2.2 (by simp [maskLine, hnil])
  · rw [rows_concat, selects_concat]
    exact hselects.imp id fun hlast => ⟨hlast.1, hlast.2.1, htest _ _ hlast.2.2⟩

/-- It meets no other line if the last line satisfies it with the carriage return too. -/
theorem selects_of_reread (h : Ragged s front last)
    (htest : ∀ state line, test (maskLine state (dropReturn line)).1 = true →
      test (maskLine state line).1 = true)
    (hselects : Selects test (Php.rows (s.reread front last).lines) i) :
    Selects test (Php.rows s.lines) i := by
  rw [h.lines_eq, rows_concat, selects_concat]
  rw [SourceText.reread] at hselects
  split_ifs at hselects with hlast
  · rw [List.append_nil] at hselects
    exact Or.inl hselects
  · rw [rows_concat, selects_concat] at hselects
    exact hselects.imp id fun hlast => ⟨hlast.1, hlast.2.1, htest _ _ hlast.2.2⟩

theorem wiringInsertions_reread (h : Ragged s front last) (htexts : ClassTexts property statement)
    (hplan : wiringInsertions path s.lines property statement = .ok insertions) :
    wiringInsertions path (s.reread front last).lines property statement = .ok insertions := by
  rw [h.lines_eq] at hplan
  rw [SourceText.reread]
  split_ifs with hlast
  · subst hlast
    rw [List.append_nil]
    exact wiringInsertions_of_concat htexts hplan
  · have hpresent : ∀ text, isPresent text (front ++ [dropReturn last]) =
        isPresent text (front ++ [last]) := by
      intro text
      simp only [isPresent, List.any_append, List.any_cons, trim_dropReturn]
    refine wiringInsertions_of_alike ?_ (hpresent _) (hpresent _) hplan
    rw [rows_concat, rows_concat]
    exact List.rel_append (List.forall₂_same.mpr fun row _ => .refl row)
      (.cons (alike_dropReturn _ _) .nil)

/-- What comes back of such lines is enough. -/
theorem rereads (h : Ragged s front last) : Rereads s (s.reread front last) where
  parse_render := h.parse_render
  parse_insertLines hinsertable := by
    obtain ⟨_, hragged, hreread⟩ := h.insertLines hinsertable
    exact hragged.parse_render.trans hreread
  parse_bindLine hname hline hmem := h.parse_bindLine hname hline hmem
  wiringInsertions_eq htexts hplan := h.wiringInsertions_reread htexts hplan
  locate_eq hfound := by
    have hsame := instantiates_maskLine_dropReturn
    obtain ⟨hselected, hbefore⟩ := firstMatch_eq_found.mp hfound
    exact firstMatch_eq_found.mpr
      ⟨h.selects_reread rfl (fun state line => hsame state line ▸ id) hselected,
        fun i hi hselects =>
          hbefore i hi (h.selects_of_reread (fun state line => hsame state line ▸ id) hselects)⟩
  findBinding?_eq_none hnone := findBinding?_eq_none.mpr fun i hselects =>
    findBinding?_eq_none.mp hnone i
      (h.selects_of_reread (fun _ _ => bindsNew_of_dropReturn) hselects)

end Ragged

/-- Of every text that a class can be wired in, enough is read again. -/
theorem exists_rereads {text : String} (hne : (SourceText.parse text).lines ≠ [])
    (hne' : (SourceText.parse text).lines ≠ [[]]) : ∃ r, Rereads (SourceText.parse text) r := by
  by_cases hreturn : text.toList.getLast? = some '\r'
  · obtain ⟨front, last, h⟩ := Ragged.parse hreturn hne'
    exact ⟨_, h.rereads⟩
  · exact ⟨_, (SourceText.sound_parse hreturn hne).rereads⟩

end PluginWorkshop.Php
