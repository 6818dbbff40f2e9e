import PluginWorkshop.Proofs.Php.Lines

/-!
# Files that come back as they were

A file that is read and put together again without an edit comes back as it was if its line feeds
all follow a carriage return or none does, and it does not end in a carriage return
(`render_parse_eq_iff`). Both texts are compared piece by piece, cut at their line feeds. Each piece
in front of a line feed loses a carriage return at its end and gets that of the file's line ending;
the last piece loses one and gets none (`splitOn_renderChars_parse`). What is known of the line feeds
of a text is known of the ends of its pieces (`exists_piece_of_newline`, `exists_newline_of_piece`).
-/

namespace PluginWorkshop.Php

open Text

namespace SourceText

variable {s a : List Char} {text : String} {front : List Line} {last piece : Line} {c : Char}

/-! ## Pieces and line feeds -/

/-- A text ends as its last piece does, unless it ends in a line feed. -/
theorem getLast?_eq_some_iff_last (hc : c ≠ '\n') (h : splitOn '\n' s = front ++ [last]) :
    s.getLast? = some c ↔ last.getLast? = some c := by
  constructor
  · intro hend
    obtain ⟨t, rfl⟩ := List.getLast?_eq_some_iff.mp hend
    obtain ⟨front', last', hsplit⟩ := exists_splitOn_concat hc t
    obtain ⟨-, rfl⟩ := List.append_singleton_inj.mp (h.symm.trans hsplit)
    simp
  · intro hend
    have hne : last ≠ [] := by
      rintro rfl
      cases hend
    obtain ⟨b, hjoin⟩ := exists_append_of_join_concat ['\n'] last front
    rw [← join_splitOn '\n' s, h, hjoin, List.getLast?_append_of_ne_nil _ hne, hend]

/-- In front of a line feed the text ends as one of its pieces does. -/
theorem exists_piece_of_newline {b : List Char} (h : splitOn '\n' s = front ++ [last])
    (hs : s = a ++ '\n' :: b) :
    ∃ piece ∈ front, a.getLast? = some '\r' ↔ piece.getLast? = some '\r' := by
  obtain ⟨fronta, lasta, ha⟩ := exists_splitOn_eq '\n' a
  obtain ⟨frontb, lastb, hb⟩ := exists_splitOn_eq '\n' b
  have hpieces : front ++ [last] = (fronta ++ [lasta] ++ frontb) ++ [lastb] := by
    rw [← h, hs, splitOn_append_cons, ha, hb, List.append_assoc (fronta ++ [lasta])]
  obtain ⟨rfl, -⟩ := List.append_singleton_inj.mp hpieces
  exact ⟨lasta, by simp, getLast?_eq_some_iff_last (by decide) ha⟩

/-- And it does so behind each piece but the last one. -/
theorem exists_newline_of_piece (h : splitOn '\n' s = front ++ [last]) (hpiece : piece ∈ front) :
    ∃ a b, s = a ++ '\n' :: b ∧ (a.getLast? = some '\r' ↔ piece.getLast? = some '\r') := by
  obtain ⟨f, g, rfl⟩ := List.append_of_mem hpiece
  have hpieces : splitOn '\n' s = (f ++ [piece]) ++ (g ++ [last]) := by rw [h]; simp
  have hnewline : ∀ p ∈ f ++ [piece], '\n' ∉ p := fun p hp =>
    notMem_of_mem_splitOn (hpieces ▸ List.mem_append_left _ hp)
  refine ⟨join ['\n'] (f ++ [piece]), join ['\n'] (g ++ [last]), ?_, ?_⟩
  · rw [← join_splitOn '\n' s, hpieces, join_append _ (by simp) (by simp), List.append_assoc]
    rfl
  · exact getLast?_eq_some_iff_last (by decide) (splitOn_join (by simp) hnewline)

/-- What is so at all line feeds is so at all pieces but the last one. -/
theorem forall_newline_iff (h : splitOn '\n' s = front ++ [last]) (p : Prop → Prop) :
    (∀ a b, s = a ++ '\n' :: b → p (a.getLast? = some '\r')) ↔
      ∀ piece ∈ front, p (piece.getLast? = some '\r') := by
  constructor
  · intro hfeeds piece hpiece
    obtain ⟨a, b, hs, hend⟩ := exists_newline_of_piece h hpiece
    exact propext hend ▸ hfeeds a b hs
  · intro hpieces a b hs
    obtain ⟨piece, hpiece, hend⟩ := exists_piece_of_newline h hs
    exact propext hend ▸ hpieces piece hpiece

/-! ## Reading and putting together -/

/-- The text that is put together has the pieces of the file as its lines. -/
theorem renderChars_parse (h : splitOn '\n' text.toList = front ++ [last]) :
    (parse text).renderChars =
      join (parse text).lineEnding.chars (front.map dropReturn ++ [dropReturn last]) := by
  have hlines : (parse text).lines =
      front.map dropReturn ++ if last = [] then [] else [dropReturn last] := linesOf_eq h
  have htrailing : (parse text).trailingNewline = true ↔ front ≠ [] ∧ last = [] :=
    endsWithNewline_iff h
  rw [renderChars, hlines]
  by_cases hlast : last = []
  · subst hlast
    cases front with
    | nil => simp [htrailing, join, dropReturn]
    | cons first front =>
      rw [if_pos rfl, List.append_nil, if_pos (htrailing.mpr ⟨by simp, rfl⟩),
        join_append_ending _ (by simp)]
      rfl
  · rw [if_neg hlast, if_neg fun hends => hlast (htrailing.mp hends).2, List.append_nil]

/-- Its pieces are those of the file, each with the line ending of the file. -/
theorem splitOn_renderChars_parse (h : splitOn '\n' text.toList = front ++ [last]) :
    splitOn '\n' (parse text).renderChars =
      front.map (fun piece => dropReturn piece ++ (parse text).lineEnding.return?) ++
        [dropReturn last] := by
  have hnewline : ∀ piece ∈ front ++ [last], '\n' ∉ dropReturn piece := fun piece hpiece hmem =>
    notMem_of_mem_splitOn (h ▸ hpiece) (mem_of_mem_dropReturn hmem)
  rw [renderChars_parse h, LineEnding.chars_eq]
  have hfront : ∀ line ∈ front.map dropReturn, '\n' ∉ line := by
    intro line hline
    obtain ⟨piece, hpiece, rfl⟩ := List.mem_map.mp hline
    exact hnewline piece (List.mem_append_left _ hpiece)
  rw [splitOn_join_append (LineEnding.newline_notMem_return? _) hfront (hnewline last (by simp)),
    List.map_map]
  rfl

theorem dropReturn_eq_self_iff : dropReturn piece = piece ↔ piece.getLast? ≠ some '\r' := by
  refine ⟨fun h hend => ?_, dropReturn_of_ne⟩
  obtain ⟨p, rfl⟩ := List.getLast?_eq_some_iff.mp hend
  rw [dropReturn_concat] at h
  simpa using congrArg List.length h

/-- A piece stays as it is if it has a carriage return exactly where the line ending has one. -/
theorem dropReturn_append_return?_eq_iff (ending : LineEnding) :
    dropReturn piece ++ ending.return? = piece ↔
      (ending = .crlf ↔ piece.getLast? = some '\r') := by
  cases ending with
  | lf => simp [LineEnding.return?, dropReturn_eq_self_iff]
  | crlf =>
    simp only [LineEnding.return?, true_iff]
    constructor
    · intro h
      rw [← h]
      simp
    · intro hend
      obtain ⟨p, rfl⟩ := List.getLast?_eq_some_iff.mp hend
      rw [dropReturn_concat]

/-- Put together, the file is the one that was read if each piece stays as it is. -/
theorem render_parse_eq_iff_pieces (h : splitOn '\n' text.toList = front ++ [last]) :
    (parse text).render = text ↔
      (∀ piece ∈ front, (parse text).lineEnding = .crlf ↔ piece.getLast? = some '\r') ∧
        last.getLast? ≠ some '\r' := by
  have hchars : (parse text).render = text ↔ (parse text).renderChars = text.toList := by
    rw [← String.toList_inj, render, String.toList_ofList]
  have hpieces : (parse text).renderChars = text.toList ↔
      splitOn '\n' (parse text).renderChars = splitOn '\n' text.toList :=
    (Function.LeftInverse.injective (join_splitOn '\n')).eq_iff.symm
  rw [hchars, hpieces, splitOn_renderChars_parse h, h, List.append_singleton_inj,
    dropReturn_eq_self_iff]
  refine and_congr_left fun _ => ?_
  calc front.map (fun piece => dropReturn piece ++ (parse text).lineEnding.return?) = front
      ↔ front.map (fun piece => dropReturn piece ++ (parse text).lineEnding.return?) =
          front.map id := by rw [List.map_id]
    _ ↔ ∀ piece ∈ front, dropReturn piece ++ (parse text).lineEnding.return? = piece :=
          List.map_inj_left
    _ ↔ _ := forall₂_congr fun _ _ => dropReturn_append_return?_eq_iff _

/-- A text comes back unedited exactly if all its line feeds or none follow a carriage return, and it
does not end in one. No line holds a line feed. -/
theorem render_parse_eq_iff (text : String) :
    ((parse text).render = text ↔
      text.toList.getLast? ≠ some '\r' ∧
        ((∀ a b, text.toList = a ++ '\n' :: b → a.getLast? = some '\r') ∨
          ∀ a b, text.toList = a ++ '\n' :: b → a.getLast? ≠ some '\r')) ∧
      ∀ line ∈ (parse text).lines, '\n' ∉ line := by
  refine ⟨?_, fun line => newline_notMem_of_mem_lines⟩
  obtain ⟨front, last, h⟩ := exists_splitOn_eq '\n' text.toList
  have hcrlf : (parse text).lineEnding = .crlf ↔ ∃ piece ∈ front, piece.getLast? = some '\r' :=
    lineEnding_parse_eq_crlf.trans (return_infix_iff h)
  have hall : (∀ a b, text.toList = a ++ '\n' :: b → a.getLast? = some '\r') ↔
      ∀ piece ∈ front, piece.getLast? = some '\r' := forall_newline_iff h fun ends => ends
  have hnone : (∀ a b, text.toList = a ++ '\n' :: b → a.getLast? ≠ some '\r') ↔
      ∀ piece ∈ front, piece.getLast? ≠ some '\r' := forall_newline_iff h Not
  have hlast : text.toList.getLast? ≠ some '\r' ↔ last.getLast? ≠ some '\r' :=
    not_congr (getLast?_eq_some_iff_last (by decide) h)
  rw [render_parse_eq_iff_pieces h, hcrlf, hlast, hall, hnone, and_comm]
  refine and_congr_right fun _ => ?_
  constructor
  · intro hsame
    by_cases hreturn : ∃ piece ∈ front, piece.getLast? = some '\r'
    · exact Or.inl fun piece hpiece => (hsame piece hpiece).mp hreturn
    · exact Or.inr fun piece hpiece => mt (hsame piece hpiece).mpr hreturn
  · rintro (hreturns | hreturns) piece hpiece
    · exact iff_of_true ⟨piece, hpiece, hreturns piece hpiece⟩ (hreturns piece hpiece)
    · refine iff_of_false ?_ (hreturns piece hpiece)
      rintro ⟨other, hother, hend⟩
      exact hreturns other hother hend

end SourceText

end PluginWorkshop.Php
