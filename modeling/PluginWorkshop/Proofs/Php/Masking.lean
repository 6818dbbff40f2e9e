import PluginWorkshop.Php.Anchor
import PluginWorkshop.Php.Quoted
import Mathlib.Data.List.Forall2
import Mathlib.Data.List.InsertIdx

/-!
# Masking line by line

The masked copy of a file is made line by line, with the state of the lexer handed on, so a line
inserted where the lexer is in code, and that leaves it there, changes no other masked line
(`rows_insertIdx`). A line of plain code and quoted texts is of this kind (`Lexes.maskLine_eq`).
The masked copy of any line has each of its characters, or a space, in its place
(`forall₂_maskLine`).
-/

namespace PluginWorkshop.Php

open Text Quoted

/-! ## Lines and states -/

/-- The state of the lexer after lines of which the first starts in `state`. -/
def stateAfter (state : LexState) (lines : List Line) : LexState :=
  lines.foldl (fun state line => (maskLine state line).2) state

theorem stateBefore_eq (lines : List Line) (index : Nat) :
    stateBefore lines index = stateAfter .code (lines.take index) :=
  rfl

theorem stateAfter_append (state : LexState) (a b : List Line) :
    stateAfter state (a ++ b) = stateAfter (stateAfter state a) b :=
  List.foldl_append

theorem length_maskFrom (state : LexState) (lines : List Line) :
    (maskFrom state lines).length = lines.length := by
  induction lines generalizing state with
  | nil => rfl
  | cons line lines ih => simp [maskFrom, ih]

/-- Lines of which the first starts in `state`, next to their masked copies. -/
def rowsFrom (state : LexState) (lines : List Line) : List Row :=
  List.zipWith Row.mk lines (maskFrom state lines)

theorem rows_eq (lines : List Line) : rows lines = rowsFrom .code lines := rfl

theorem rowsFrom_cons (state : LexState) (line : Line) (lines : List Line) :
    rowsFrom state (line :: lines) =
      ⟨line, (maskLine state line).1⟩ :: rowsFrom (maskLine state line).2 lines :=
  rfl

theorem length_rows (lines : List Line) : (rows lines).length = lines.length := by
  rw [rows, List.length_zipWith, mask, length_maskFrom, Nat.min_self]

theorem rowsFrom_append (state : LexState) (a b : List Line) :
    rowsFrom state (a ++ b) = rowsFrom state a ++ rowsFrom (stateAfter state a) b := by
  induction a generalizing state with
  | nil => rfl
  | cons line a ih =>
    rw [List.cons_append, rowsFrom_cons, rowsFrom_cons, ih]
    rfl

theorem getElem?_rowsFrom (state : LexState) (lines : List Line) (i : Nat) :
    (rowsFrom state lines)[i]? =
      lines[i]?.map fun line => ⟨line, (maskLine (stateAfter state (lines.take i)) line).1⟩ := by
  induction lines generalizing state i with
  | nil => rfl
  | cons line lines ih =>
    cases i with
    | zero => rfl
    | succ i =>
      rw [rowsFrom_cons, List.getElem?_cons_succ, List.getElem?_cons_succ, ih]
      rfl

/-- A row holds a line and what the lexer makes of it. -/
theorem getElem?_rows (lines : List Line) (i : Nat) :
    (rows lines)[i]? = lines[i]?.map fun line => ⟨line, (maskLine (stateBefore lines i) line).1⟩ :=
  getElem?_rowsFrom .code lines i

theorem insertIdx_length_append {α : Type} (a b : List α) (x : α) :
    (a ++ b).insertIdx a.length x = a ++ x :: b := by
  induction a with
  | nil => rfl
  | cons y a ih => rw [List.cons_append, List.length_cons, List.insertIdx_succ_cons, ih]; rfl

section Insertion

variable {lines : List Line} {index : Nat} {line code : Line}

theorem exists_append_of_le {α : Type} {l : List α} (h : index ≤ l.length) :
    ∃ a b, l = a ++ b ∧ a.length = index :=
  ⟨l.take index, l.drop index, (List.take_append_drop index l).symm, List.length_take_of_le h⟩

/-- A line that leaves the lexer in the state in which it finds it changes no other row. -/
theorem rows_insertIdx_of_state_eq (hindex : index ≤ lines.length)
    (hstate : (maskLine (stateBefore lines index) line).2 = stateBefore lines index) :
    rows (lines.insertIdx index line) =
      (rows lines).insertIdx index ⟨line, (maskLine (stateBefore lines index) line).1⟩ := by
  obtain ⟨a, b, rfl, rfl⟩ := exists_append_of_le hindex
  rw [stateBefore_eq, List.take_left] at hstate ⊢
  have hlength : (rowsFrom .code a).length = a.length := length_rows a
  rw [insertIdx_length_append, rows_eq, rows_eq, rowsFrom_append, rowsFrom_append, rowsFrom_cons,
    hstate, ← hlength, insertIdx_length_append]

/-- So does a line that is inserted between code and code. -/
theorem rows_insertIdx (hindex : index ≤ lines.length) (hstate : stateBefore lines index = .code)
    (hline : maskLine .code line = (code, .code)) :
    rows (lines.insertIdx index line) = (rows lines).insertIdx index ⟨line, code⟩ := by
  have hsame : (maskLine (stateBefore lines index) line).2 = stateBefore lines index := by
    rw [hstate, hline]
  rw [rows_insertIdx_of_state_eq hindex hsame, hstate, hline]

/-- Nor does it change the state before any other line. -/
theorem stateBefore_insertIdx (hindex : index ≤ lines.length)
    (hstate : stateBefore lines index = .code) (hline : maskLine .code line = (code, .code))
    (i : Nat) : stateBefore (lines.insertIdx index line) (if i < index then i else i + 1) =
      stateBefore lines i := by
  obtain ⟨a, b, rfl, rfl⟩ := exists_append_of_le hindex
  rw [stateBefore_eq, List.take_left] at hstate
  rw [insertIdx_length_append, stateBefore_eq, stateBefore_eq]
  split_ifs with hi
  · rw [List.take_append_of_le_length (by omega), List.take_append_of_le_length (by omega)]
  · obtain ⟨k, rfl⟩ : ∃ k, i = a.length + k := ⟨i - a.length, by omega⟩
    rw [Nat.add_assoc, List.take_length_add_append, List.take_length_add_append,
      List.take_succ_cons, stateAfter_append, stateAfter_append, hstate]
    change stateAfter (maskLine .code line).2 (b.take k) = _
    rw [hline]

end Insertion

/-! ## One line -/

/-- What stands in the masked copy in the place of a character. -/
def Masks (masked c : Char) : Prop := masked = c ∨ masked = ' '

attribute [local simp] maskLine

theorem maskLine_cons_of_keep {state next : LexState} {c : Char} {rest : Line}
    (h : step state c rest.head? = .keep next) :
    maskLine state (c :: rest) = (c :: (maskLine next rest).1, (maskLine next rest).2) := by
  simp [h]

theorem maskLine_cons_of_blank {state next : LexState} {c : Char} {rest : Line}
    (h : step state c rest.head? = .blank next) :
    maskLine state (c :: rest) = (' ' :: (maskLine next rest).1, (maskLine next rest).2) := by
  simp [h]

theorem maskLine_cons_of_blankPair {state next : LexState} {c d : Char} {rest : Line}
    (h : step state c (some d) = .blankPair next) :
    maskLine state (c :: d :: rest) =
      (' ' :: ' ' :: (maskLine next rest).1, (maskLine next rest).2) := by
  simp [h]

theorem maskLine_singleton_of_blankPair {state next : LexState} {c : Char}
    (h : step state c none = .blankPair next) : maskLine state [c] = ([' '], next) := by
  simp [h]

theorem maskLine_cons_of_blankLine {state : LexState} {c : Char} {rest : Line}
    (h : step state c rest.head? = .blankLine) :
    maskLine state (c :: rest) = (' ' :: blanked rest, .code) := by
  simp [h]

/-- A masked copy keeps each character or blanks it. -/
theorem forall₂_maskLine (state : LexState) (line : Line) :
    List.Forall₂ Masks (maskLine state line).1 line := by
  induction state, line using maskLine.induct with
  | case1 state => exact .nil
  | case2 state c next rest masked last _ hstep ih =>
    rw [maskLine_cons_of_keep hstep]
    exact .cons (Or.inl rfl) ih
  | case3 state c next rest masked last _ hstep ih =>
    rw [maskLine_cons_of_blank hstep]
    exact .cons (Or.inr rfl) ih
  | case4 state c next d rest masked last _ hstep ih =>
    rw [maskLine_cons_of_blankPair hstep]
    exact .cons (Or.inr rfl) (.cons (Or.inr rfl) ih)
  | case5 state c next hstep =>
    rw [maskLine_singleton_of_blankPair hstep]
    exact .cons (Or.inr rfl) .nil
  | case6 state c rest hstep =>
    rw [maskLine_cons_of_blankLine hstep, blanked]
    refine .cons (Or.inr rfl) (List.forall₂_map_left_iff.mpr ?_)
    exact List.forall₂_same.mpr fun _ _ => Or.inr rfl

/-- A character that the masked copy keeps stands in its place on the line. -/
theorem exists_append_of_masks {a b line : Line} {c : Char}
    (h : List.Forall₂ Masks (a ++ c :: b) line) (hc : c ≠ ' ') :
    ∃ a' b', line = a' ++ c :: b' ∧ List.Forall₂ Masks b b' := by
  induction a generalizing line with
  | nil =>
    obtain ⟨d, b', hmasks, hrest, rfl⟩ := List.forall₂_cons_left_iff.mp h
    obtain rfl : c = d := hmasks.resolve_right hc
    exact ⟨[], b', rfl, hrest⟩
  | cons e a ih =>
    obtain ⟨d, rest, -, hrest, rfl⟩ := List.forall₂_cons_left_iff.mp h
    obtain ⟨a', b', rfl, hb⟩ := ih hrest
    exact ⟨d :: a', b', rfl, hb⟩

theorem mem_of_masks {code line : Line} {c : Char} (h : List.Forall₂ Masks code line)
    (hmem : c ∈ code) (hc : c ≠ ' ') : c ∈ line := by
  obtain ⟨a, b, rfl⟩ := List.append_of_mem hmem
  obtain ⟨a', b', rfl, -⟩ := exists_append_of_masks h hc
  simp

/-! ## Code and quoted texts -/

/-- A character that stands for itself in code and opens and closes nothing. -/
def isPlain (c : Char) : Bool :=
  !(['/', '#', '\'', '"', '\x7b', '\x7d', '[', ']', '\n'].contains c)

theorem step_of_isPlain {c : Char} (h : isPlain c = true) (next : Option Char) :
    step .code c next = .keep .code := by
  simp only [isPlain, List.contains_eq_mem, List.mem_cons, Bool.not_eq_true',
    decide_eq_false_iff_not, not_or] at h
  obtain ⟨hslash, hhash, hquote, hdouble, -⟩ := h
  simp [step, hslash, hhash, hquote, hdouble]

/-- The content of a quoted text is blank, and its end is found. -/
theorem maskLine_encode (s rest : List Char) :
    maskLine .singleQuoted (encode s ++ '\'' :: rest) =
      (blanked (encode s) ++ '\'' :: (maskLine .code rest).1, (maskLine .code rest).2) := by
  induction s with
  | nil => exact maskLine_cons_of_keep (by simp [step, stepQuoted])
  | cons c s ih =>
    rw [encode]
    split_ifs with hc
    · have hstep : step .singleQuoted '\\' (some c) = .blankPair .singleQuoted := by
        simp [step, stepQuoted]
      rw [List.cons_append, List.cons_append, maskLine_cons_of_blankPair hstep, ih]
      rfl
    · rw [not_or] at hc
      have hstep : step .singleQuoted c (encode s ++ '\'' :: rest).head? =
          .blank .singleQuoted := by
        simp [step, stepQuoted, hc]
      rw [List.cons_append, maskLine_cons_of_blank hstep, ih]
      rfl

/-- A line of plain characters and quoted texts, with its masked copy. -/
inductive Lexes : List Char → List Char → Prop where
  | nil : Lexes [] []
  | plain {c : Char} {s masked : List Char} :
      isPlain c = true → Lexes s masked → Lexes (c :: s) (c :: masked)
  | quoted {text s masked : List Char} :
      '\n' ∉ text → Lexes s masked →
      Lexes ('\'' :: encode text ++ '\'' :: s) ('\'' :: blanked (encode text) ++ '\'' :: masked)

namespace Lexes

variable {s masked : List Char}

theorem plain_append {a : List Char} (ha : ∀ c ∈ a, isPlain c = true) (h : Lexes s masked) :
    Lexes (a ++ s) (a ++ masked) := by
  induction a with
  | nil => exact h
  | cons c a ih =>
    exact .plain (ha c List.mem_cons_self) (ih fun d hd => ha d (List.mem_cons_of_mem c hd))

theorem quote_append {text : String} (htext : '\n' ∉ text.toList) (h : Lexes s masked) :
    Lexes ((quote text).toList ++ s)
      ('\'' :: blanked (encode text.toList) ++ '\'' :: masked) := by
  have hquote : (quote text).toList ++ s = '\'' :: encode text.toList ++ '\'' :: s := by
    simp [quote]
  rw [hquote]
  exact .quoted htext h

/-- Such a line starts and ends in code. -/
theorem maskLine_eq (h : Lexes s masked) : maskLine .code s = (masked, .code) := by
  induction h with
  | nil => rfl
  | plain hc _ ih => rw [maskLine_cons_of_keep (step_of_isPlain hc _), ih]
  | @quoted text s masked _ _ ih =>
    have hstep : step .code '\'' (encode text ++ '\'' :: s).head? = .keep .singleQuoted := by
      simp [step]
    rw [List.cons_append, maskLine_cons_of_keep hstep, maskLine_encode, ih]
    rfl

theorem newline_notMem_encode {text : List Char} (h : '\n' ∉ text) : '\n' ∉ encode text := by
  induction text with
  | nil => simp [encode]
  | cons c text ih =>
    rw [List.mem_cons, not_or] at h
    rw [encode]
    split_ifs
    · simp [h.1, ih h.2]
    · simp [h.1, ih h.2]

theorem newline_notMem (h : Lexes s masked) : '\n' ∉ s := by
  induction h with
  | nil => simp
  | plain hc _ ih =>
    rw [List.mem_cons, not_or]
    exact ⟨fun heq => by simp [← heq, isPlain] at hc, ih⟩
  | quoted htext _ ih => simp [newline_notMem_encode htext, ih]

/-- Its masked copy holds plain characters and quotes. -/
theorem isPlain_of_mem (h : Lexes s masked) {c : Char} (hc : c ∈ masked) :
    isPlain c = true ∨ c = '\'' := by
  induction h with
  | nil => simp at hc
  | plain hplain _ ih =>
    rcases List.mem_cons.mp hc with rfl | hc
    · exact Or.inl hplain
    · exact ih hc
  | quoted _ _ ih =>
    simp only [List.cons_append, List.mem_cons, List.mem_append, blanked, List.mem_map] at hc
    rcases hc with rfl | ⟨_, -, rfl⟩ | rfl | hc
    · exact Or.inr rfl
    · exact Or.inl (by decide)
    · exact Or.inr rfl
    · exact ih hc

end Lexes

end PluginWorkshop.Php
