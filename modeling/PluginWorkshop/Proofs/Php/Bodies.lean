import PluginWorkshop.Proofs.Php.Climbing

/-!
# The body of the initialization method

A line without braces that is inserted outside the head of the initialization method, which is all
from its marker to its opening brace, moves the braces of the method with the lines they stand on
(`Body.insertIdx`).
-/

namespace PluginWorkshop.Php

open Text

variable {index : Nat}

/-! ## Moved lines -/

/-- A character of the code with its line once another line is inserted at `index`. -/
def moved (index : Nat) (p : Nat × Char) : Nat × Char := (shifted index p.1, p.2)

theorem shifted_of_le {line : Nat} (h : index ≤ line) : shifted index line = line + 1 :=
  if_neg (by omega)

theorem shifted_of_lt {line : Nat} (h : line < index) : shifted index line = line := if_pos h

theorem shifted_ne {line line' : Nat} (h : line ≠ line') :
    shifted index line ≠ shifted index line' := by
  rw [shifted, shifted]
  split_ifs <;> omega

theorem getElem?_insertIdx_shifted {α : Type} (l : List α) (x : α) (i : Nat) :
    (l.insertIdx index x)[shifted index i]? = l[i]? := by
  rw [shifted, List.getElem?_insertIdx]
  split_ifs <;> first | rfl | omega

/-! ## The code after the marker -/

theorem placedFrom_cons (start : Nat) (line : Line) (lines : List Line) :
    placedFrom start (line :: lines) = line.map (start, ·) ++ placedFrom (start + 1) lines := by
  rw [placedFrom, List.zipIdx_cons, List.flatMap_cons]
  rfl

theorem placedFrom_append (start : Nat) (a b : List Line) :
    placedFrom start (a ++ b) = placedFrom start a ++ placedFrom (start + a.length) b := by
  rw [placedFrom, List.zipIdx_append, List.flatMap_append]
  rfl

theorem mem_placedFrom {start : Nat} {lines : List Line} {p : Nat × Char} :
    p ∈ placedFrom start lines ↔ ∃ line, (line, p.1) ∈ lines.zipIdx start ∧ p.2 ∈ line := by
  obtain ⟨index, c⟩ := p
  simp only [placedFrom, List.mem_flatMap, List.mem_map, Prod.exists, Prod.mk.injEq]
  constructor
  · rintro ⟨line, _, hline, _, hc, rfl, rfl⟩
    exact ⟨line, hline, hc⟩
  · rintro ⟨line, hline, hc⟩
    exact ⟨line, index, hline, c, hc, rfl, rfl⟩

theorem le_of_mem_placedFrom {start : Nat} {lines : List Line} {p : Nat × Char}
    (h : p ∈ placedFrom start lines) : start ≤ p.1 := by
  rw [mem_placedFrom] at h
  obtain ⟨line, hline, -⟩ := h
  exact List.le_snd_of_mem_zipIdx hline

theorem lt_of_mem_placedFrom {start : Nat} {lines : List Line} {p : Nat × Char}
    (h : p ∈ placedFrom start lines) : p.1 < start + lines.length := by
  rw [mem_placedFrom] at h
  obtain ⟨line, hline, -⟩ := h
  exact List.snd_lt_add_of_mem_zipIdx hline

/-- The code stands in the order of its lines. -/
theorem pairwise_placedFrom (start : Nat) (lines : List Line) :
    (placedFrom start lines).Pairwise fun p q => p.1 ≤ q.1 := by
  induction lines generalizing start with
  | nil => exact List.Pairwise.nil
  | cons line lines ih =>
    rw [placedFrom_cons, List.pairwise_append]
    refine ⟨List.pairwise_map.mpr (List.pairwise_of_forall fun _ _ => Nat.le_refl _), ih _, ?_⟩
    intro p hp q hq
    obtain ⟨c, -, rfl⟩ := List.mem_map.mp hp
    exact (Nat.le_succ _).trans (le_of_mem_placedFrom hq)

theorem placedFrom_moved {start : Nat} (h : index ≤ start) (lines : List Line) :
    placedFrom (start + 1) lines = (placedFrom start lines).map (moved index) := by
  induction lines generalizing start with
  | nil => rfl
  | cons line lines ih =>
    rw [placedFrom_cons, placedFrom_cons, List.map_append, ih (by omega), List.map_map]
    congr 2
    funext c
    exact Prod.ext (shifted_of_le h).symm rfl

theorem map_moved_of_lt {placed : List (Nat × Char)} (h : ∀ p ∈ placed, p.1 < index) :
    placed.map (moved index) = placed := by
  refine (List.map_congr_left fun p hp => ?_).trans (List.map_id placed)
  exact Prod.ext (shifted_of_lt (h p hp)) rfl

/-! ## Braces -/

attribute [local simp] findOpening

variable {a b x rest : List (Nat × Char)} {line depth : Nat}

theorem findOpening_moved (index : Nat) (placed : List (Nat × Char)) :
    findOpening (placed.map (moved index)) =
      (findOpening placed).map fun (line, rest) => (shifted index line, rest.map (moved index)) := by
  induction placed with
  | nil => rfl
  | cons p placed ih =>
    by_cases hsemicolon : p.2 = ';'
    · simp [moved, hsemicolon]
    · by_cases hbrace : p.2 = '\x7b'
      · simp [moved, hbrace]
      · rw [List.map_cons, findOpening, findOpening, if_neg hsemicolon, if_neg hbrace, ← ih]
        exact (if_neg hsemicolon).trans (if_neg hbrace)

theorem findClosing_cons (depth : Nat) (p : Nat × Char) (rest : List (Nat × Char)) :
    findClosing depth (p :: rest) =
      if p.2 = '\x7b' then findClosing (depth + 1) rest
      else if p.2 = '\x7d' then
        match depth with
        | 0 => some p.1
        | depth + 1 => findClosing depth rest
      else findClosing depth rest :=
  findClosing.eq_def depth (p :: rest)

theorem findClosing_moved (index depth : Nat) (placed : List (Nat × Char)) :
    findClosing depth (placed.map (moved index)) = (findClosing depth placed).map (shifted index) := by
  induction placed generalizing depth with
  | nil => rw [List.map_nil, findClosing.eq_1]; rfl
  | cons p placed ih =>
    have hchar : (moved index p).2 = p.2 := rfl
    rw [List.map_cons, findClosing_cons, findClosing_cons, hchar]
    split_ifs
    · exact ih _
    · cases depth with
      | zero => rfl
      | succ depth => exact ih _
    · exact ih _

theorem findOpening_split (h : findOpening a = some (line, rest)) :
    ∃ front, a = front ++ (line, '\x7b') :: rest ∧ ∀ p ∈ front, p.2 ≠ '\x7b' := by
  induction a with
  | nil => cases h
  | cons p a ih =>
    rw [findOpening] at h
    split_ifs at h with hsemicolon hbrace
    · obtain ⟨rfl, rfl⟩ : p.1 = line ∧ a = rest := by simpa using h
      exact ⟨[], by rw [← hbrace]; rfl, by simp⟩
    · obtain ⟨front, rfl, hfront⟩ := ih h
      exact ⟨p :: front, rfl, List.forall_mem_cons.mpr ⟨hbrace, hfront⟩⟩

theorem findOpening_append (h : findOpening a = some (line, rest)) (b : List (Nat × Char)) :
    findOpening (a ++ b) = some (line, rest ++ b) := by
  induction a with
  | nil => cases h
  | cons p a ih =>
    rw [findOpening] at h
    rw [List.cons_append, findOpening]
    split_ifs at h ⊢
    · obtain ⟨rfl, rfl⟩ : p.1 = line ∧ a = rest := by simpa using h
      rfl
    · exact ih h

/-- An opening brace that is not on the later lines is found without them. -/
theorem exists_findOpening_of_append (h : findOpening (a ++ b) = some (line, rest))
    (hb : ∀ p ∈ b, line < p.1) : ∃ front, findOpening a = some (line, front) ∧ rest = front ++ b := by
  induction a with
  | nil =>
    obtain ⟨front, rfl, -⟩ := findOpening_split h
    have := hb (line, '\x7b') (by simp)
    simp at this
  | cons p a ih =>
    rw [List.cons_append, findOpening] at h
    rw [findOpening]
    split_ifs at h ⊢
    · obtain ⟨rfl, rfl⟩ : p.1 = line ∧ a ++ b = rest := by simpa using h
      exact ⟨a, rfl, rfl⟩
    · exact ih h

theorem mem_of_findClosing {placed : List (Nat × Char)} (h : findClosing depth placed = some line) :
    ∃ c, (line, c) ∈ placed := by
  induction placed generalizing depth with
  | nil => cases h
  | cons p placed ih =>
    rw [findClosing_cons] at h
    have hrest : ∀ {depth}, findClosing depth placed = some line → ∃ c, (line, c) ∈ p :: placed := by
      intro depth h
      obtain ⟨c, hc⟩ := ih h
      exact ⟨c, List.mem_cons_of_mem p hc⟩
    split_ifs at h
    · exact hrest h
    · cases depth with
      | zero => exact ⟨p.2, by rw [← Option.some.inj h]; exact List.mem_cons_self⟩
      | succ depth => exact hrest h
    · exact hrest h

/-- Code without braces makes no difference. -/
theorem findClosing_skip (hx : ∀ p ∈ x, p.2 ≠ '\x7b' ∧ p.2 ≠ '\x7d') (depth : Nat)
    (a b : List (Nat × Char)) : findClosing depth (a ++ x ++ b) = findClosing depth (a ++ b) := by
  induction a generalizing depth with
  | nil =>
    induction x with
    | nil => rfl
    | cons p x ih =>
      obtain ⟨hopen, hclose⟩ := hx p List.mem_cons_self
      rw [List.nil_append, List.cons_append, findClosing_cons, if_neg hopen, if_neg hclose]
      exact ih fun q hq => hx q (List.mem_cons_of_mem p hq)
  | cons p a ih =>
    rw [List.cons_append, List.cons_append, List.cons_append, findClosing_cons, findClosing_cons]
    split_ifs
    · exact ih _
    · cases depth with
      | zero => rfl
      | succ depth => exact ih _
    · exact ih _

/-! ## The method -/

theorem methodBody_eq_some {marker : Line} {code : List Line} {opening closing : Nat} :
    methodBody marker line code = some (opening, closing) ↔
      ∃ declaration head body, code[line]? = some declaration ∧
        suffixFrom? marker declaration = some head ∧
        findOpening (placedFrom line (head :: code.drop (line + 1))) = some (opening, body) ∧
        findClosing 0 body = some closing := by
  simp only [methodBody, bind, Option.bind_eq_some_iff, Prod.exists, pure, Option.some.injEq,
    Prod.mk.injEq]
  constructor
  · rintro ⟨declaration, hline, head, hhead, opening, body, hopening, closing, hclosing, rfl, rfl⟩
    exact ⟨declaration, head, body, hline, hhead, hopening, hclosing⟩
  · rintro ⟨declaration, head, body, hline, hhead, hopening, hclosing⟩
    exact ⟨declaration, hline, head, hhead, opening, body, hopening, closing, hclosing, rfl, rfl⟩

/-- The opening brace stands at the marker or below it, and the closing brace below that. -/
theorem le_of_methodBody {marker : Line} {code : List Line} {opening closing : Nat}
    (h : methodBody marker line code = some (opening, closing)) :
    line ≤ opening ∧ opening ≤ closing := by
  rw [methodBody_eq_some] at h
  obtain ⟨declaration, head, body, -, -, hopening, hclosing⟩ := h
  obtain ⟨front, hsplit, -⟩ := findOpening_split hopening
  obtain ⟨c, hc⟩ := mem_of_findClosing hclosing
  have hsorted := pairwise_placedFrom line (head :: code.drop (line + 1))
  have hmem : (opening, '\x7b') ∈ placedFrom line (head :: code.drop (line + 1)) := by
    simp [hsplit]
  rw [hsplit, List.pairwise_append, List.pairwise_cons] at hsorted
  exact ⟨le_of_mem_placedFrom hmem, hsorted.2.1.1 _ hc⟩

theorem methodBody_insertIdx {marker : Line} {code : List Line} {opening closing : Nat}
    {line' : Line} (hline' : ∀ c ∈ line', c ≠ '\x7b' ∧ c ≠ '\x7d') (hindex : index ≤ code.length)
    (hhead : index ≤ line ∨ opening < index)
    (h : methodBody marker line code = some (opening, closing)) :
    methodBody marker (shifted index line) (code.insertIdx index line') =
      some (shifted index opening, shifted index closing) := by
  have hle := (le_of_methodBody h).1
  rw [methodBody_eq_some] at h ⊢
  obtain ⟨declaration, head, body, hline, hsuffix, hopening, hclosing⟩ := h
  refine ⟨declaration, head, ?_⟩
  rw [getElem?_insertIdx_shifted]
  obtain ⟨a, b, rfl, rfl⟩ := exists_append_of_le hindex
  rw [insertIdx_length_append]
  rcases hhead with hbefore | hafter
  · -- All of the method moves.
    obtain ⟨k, rfl⟩ : ∃ k, line = a.length + k := ⟨line - a.length, by omega⟩
    rw [Nat.add_assoc, List.drop_length_add_append] at hopening
    refine ⟨body.map (moved a.length), hline, hsuffix, ?_, ?_⟩
    · rw [shifted_of_le (by omega), Nat.add_assoc, Nat.add_assoc, List.drop_length_add_append,
        List.drop_succ_cons, ← Nat.add_assoc, placedFrom_moved (Nat.le_add_right a.length k),
        findOpening_moved, hopening]
      rfl
    · rw [findClosing_moved, hclosing]
      rfl
  · -- The line comes into the body or behind it.
    rw [shifted_of_lt (by omega), shifted_of_lt hafter,
      List.drop_append_of_le_length (by omega), ← List.cons_append, placedFrom_append]
    rw [List.drop_append_of_le_length (by omega), ← List.cons_append, placedFrom_append] at hopening
    have hlength : line + (head :: a.drop (line + 1)).length = a.length := by
      rw [List.length_cons, List.length_drop]
      omega
    have hfront : ∀ p ∈ placedFrom line (head :: a.drop (line + 1)), p.1 < a.length := fun p hp =>
      hlength ▸ lt_of_mem_placedFrom hp
    rw [hlength] at hopening ⊢
    generalize placedFrom line (head :: a.drop (line + 1)) = front at hopening hfront ⊢
    obtain ⟨inside, hfound, rfl⟩ := exists_findOpening_of_append hopening fun p hp =>
      Nat.lt_of_lt_of_le hafter (le_of_mem_placedFrom hp)
    refine ⟨_, hline, hsuffix, findOpening_append hfound _, ?_⟩
    obtain ⟨_, rfl, -⟩ := findOpening_split hfound
    have hinside : inside.map (moved a.length) = inside :=
      map_moved_of_lt fun p hp => hfront p (by simp [hp])
    rw [placedFrom_cons, placedFrom_moved (Nat.le_refl a.length), ← List.append_assoc,
      findClosing_skip ?_, ← hinside, ← List.map_append, findClosing_moved, hclosing]
    · rfl
    · intro p hp
      obtain ⟨c, hc, rfl⟩ := List.mem_map.mp hp
      exact hline' c hc

/-! ## The end of the method -/

/-- The lines of the marker and of the braces of the initialization method. -/
structure Body (rows : List Row) (marker opening closing : Nat) : Prop where
  marker_eq : uniqueMarker initializerMarker rows = .ok marker
  body_eq : methodBody initializerMarker marker (rows.map Row.code) = some (opening, closing)
  closing_ne : closing ≠ opening
  /-- The closing brace stands alone. -/
  alone : ((rows.map Row.code)[closing]?).map trim = some ['\x7d']

variable {rows : List Row} {marker opening closing : Nat}

theorem initializerEnd_eq_found : initializerEnd rows = .found closing ↔
    ∃ marker opening, Body rows marker opening closing := by
  rw [initializerEnd]
  cases hmarker : uniqueMarker initializerMarker rows with
  | error lookup =>
    refine iff_of_false ?_ ?_
    · rintro rfl
      exact uniqueMarker_ne_found hmarker
    · rintro ⟨marker, opening, hbody⟩
      simp [hbody.marker_eq] at hmarker
  | ok marker =>
    dsimp only
    cases hbody : methodBody initializerMarker marker (rows.map Row.code) with
    | none =>
      refine iff_of_false (by simp) ?_
      rintro ⟨marker', opening, h⟩
      obtain rfl : marker = marker' := Except.ok.inj (hmarker.symm.trans h.marker_eq)
      simp [h.body_eq] at hbody
    | some braces =>
      obtain ⟨opening, found⟩ := braces
      dsimp only
      constructor
      · intro h
        split_ifs at h with hne halone
        obtain rfl : found = closing := by simpa using h
        exact ⟨marker, opening, hmarker, hbody, hne, halone⟩
      · rintro ⟨marker', opening', h⟩
        obtain rfl : marker = marker' := Except.ok.inj (hmarker.symm.trans h.marker_eq)
        obtain ⟨rfl, rfl⟩ : opening = opening' ∧ found = closing := by
          simpa [hbody] using h.body_eq
        rw [if_neg h.closing_ne, if_pos h.alone]

namespace Body

theorem opening_lt (h : Body rows marker opening closing) : opening < closing := by
  have := (le_of_methodBody h.body_eq).2
  have := h.closing_ne
  omega

/-- A line without braces outside the head of the method moves it with its lines. -/
theorem insertIdx (h : Body rows marker opening closing) {r : Row}
    (hmarker : containsText initializerMarker r.code = false)
    (hbraces : ∀ c ∈ r.code, c ≠ '\x7b' ∧ c ≠ '\x7d') (hindex : index ≤ rows.length)
    (hhead : index ≤ marker ∨ opening < index) :
    Body (rows.insertIdx index r) (shifted index marker) (shifted index opening)
      (shifted index closing) := by
  have hmap : (rows.insertIdx index r).map Row.code = (rows.map Row.code).insertIdx index r.code :=
    List.map_insertIdx _ _ _ _
  constructor
  · exact uniqueMarker_insertIdx hindex hmarker h.marker_eq
  · rw [hmap]
    exact methodBody_insertIdx hbraces (by simpa using hindex) hhead h.body_eq
  · exact shifted_ne h.closing_ne
  · rw [hmap, getElem?_insertIdx_shifted]
    exact h.alone

/-- The brace is all the code on its line. -/
theorem closing_code (h : Body rows marker opening closing) :
    ∃ row, rows[closing]? = some row ∧ '\x7d' ∈ row.code ∧
      ∀ c ∈ row.code, isBlank c = false → c = '\x7d' := by
  have halone := h.alone
  rw [List.getElem?_map, Option.map_map, Option.map_eq_some_iff] at halone
  obtain ⟨row, hrow, htrim⟩ := halone
  change trim row.code = ['\x7d'] at htrim
  refine ⟨row, hrow, (trim_sublist row.code).subset (by simp [htrim]), fun c hc hblank => ?_⟩
  simpa [htrim] using mem_trim_of_mem hc hblank

/-- The row of the closing brace is solid and bears no marker. -/
theorem closing_row (h : Body rows marker opening closing) :
    ∃ row, rows[closing]? = some row ∧ row.Solid ∧
      containsText constructorMarker row.code = false := by
  obtain ⟨row, hrow, hbrace, hcode⟩ := h.closing_code
  refine ⟨row, hrow, ⟨?_, ?_, ?_⟩, ?_⟩
  · rw [Row.isCodeless, isAllBlank, List.all_eq_false]
    exact ⟨_, hbrace, by decide⟩
  · intro hmem
    exact absurd (hcode _ hmem (by decide)) (by decide)
  · intro hmem
    exact absurd (hcode _ hmem (by decide)) (by decide)
  · rw [Bool.eq_false_iff, Ne, containsText_iff]
    intro hinfix
    have hmem : 'f' ∈ row.code := hinfix.subset (by decide)
    exact absurd (hcode _ hmem (by decide)) (by decide)

end Body

end PluginWorkshop.Php
