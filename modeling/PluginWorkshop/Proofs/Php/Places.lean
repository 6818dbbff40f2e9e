import PluginWorkshop.Php.Bootstrap
import PluginWorkshop.Proofs.Php.Lines
import PluginWorkshop.Proofs.Php.WiredLines

/-!
# The places of a wiring

A class is wired in at two places: above the constructor and at the end of the initialization
method. If both lie in code, and the first not in the head of the method (`Wireable`), an inert line
inserted at one of them moves both as it moves the lines below it, and they are found again
(`Wireable.declare`, `Wireable.assign`). So the lines inserted at either place, one after another,
stand there in their order (`weave_declare`, `weave_assign`).
-/

namespace PluginWorkshop.Php

open Text

/-! ## Two places -/

/-- Both places of a wiring are found and lie in code. -/
structure Wireable (lines : List Line) (declareAt assignAt : Nat) : Prop where
  declareAt_eq : propertyAnchor (rows lines) = .found declareAt
  /-- The property goes not between the marker of the method and its opening brace. -/
  body : ∃ marker opening, Body (rows lines) marker opening assignAt ∧
    (declareAt ≤ marker ∨ opening < declareAt)
  declareAt_code : stateBefore lines declareAt = .code
  assignAt_code : stateBefore lines assignAt = .code

namespace Wireable

variable {lines : List Line} {declareAt assignAt : Nat} {line code : Line}

theorem declareAt_lt (h : Wireable lines declareAt assignAt) : declareAt < lines.length := by
  rw [← length_rows]
  exact propertyAnchor_lt h.declareAt_eq

theorem assignAt_lt (h : Wireable lines declareAt assignAt) : assignAt < lines.length := by
  obtain ⟨marker, opening, hbody, -⟩ := h.body
  obtain ⟨row, hrow, -⟩ := hbody.closing_row
  rw [← length_rows]
  exact (List.getElem?_eq_some_iff.mp hrow).1

theorem ne (h : Wireable lines declareAt assignAt) : declareAt ≠ assignAt := by
  obtain ⟨marker, opening, hbody, -⟩ := h.body
  obtain ⟨row, hrow, hsolid, hnone⟩ := hbody.closing_row
  exact propertyAnchor_ne h.declareAt_eq hrow hsolid hnone

theorem assignAt_eq (h : Wireable lines declareAt assignAt) :
    initializerEnd (rows lines) = .found assignAt := by
  obtain ⟨marker, opening, hbody, -⟩ := h.body
  exact initializerEnd_eq_found.mpr ⟨marker, opening, hbody⟩

/-- A line inserted at the first place moves both. -/
theorem declare (h : Wireable lines declareAt assignAt) (hline : Inert line code) :
    Wireable (lines.insertIdx declareAt line) (shifted declareAt declareAt)
      (shifted declareAt assignAt) := by
  have hindex := Nat.le_of_lt h.declareAt_lt
  have hmask := hline.lexes.maskLine_eq
  have hrows := rows_insertIdx hindex h.declareAt_code hmask
  have hindex' : declareAt ≤ (rows lines).length := by rwa [length_rows]
  constructor
  · rw [hrows]
    exact propertyAnchor_insertIdx hline.solid hline.containsText_constructorMarker hindex'
      (fun hlt => absurd hlt (Nat.lt_irrefl _)) h.declareAt_eq
  · obtain ⟨marker, opening, hbody, hhead⟩ := h.body
    refine ⟨shifted declareAt marker, shifted declareAt opening, ?_, ?_⟩
    · rw [hrows]
      exact hbody.insertIdx hline.containsText_initializerMarker (fun c hc => hline.ne_brace hc)
        hindex' hhead
    · rw [shifted, shifted, shifted]
      split_ifs <;> omega
  · exact (stateBefore_insertIdx hindex h.declareAt_code hmask declareAt).trans h.declareAt_code
  · exact (stateBefore_insertIdx hindex h.declareAt_code hmask assignAt).trans h.assignAt_code

/-- A line inserted at the second place moves both. -/
theorem assign (h : Wireable lines declareAt assignAt) (hline : Inert line code) :
    Wireable (lines.insertIdx assignAt line) (shifted assignAt declareAt)
      (shifted assignAt assignAt) := by
  have hindex := Nat.le_of_lt h.assignAt_lt
  have hmask := hline.lexes.maskLine_eq
  have hrows := rows_insertIdx hindex h.assignAt_code hmask
  have hindex' : assignAt ≤ (rows lines).length := by rwa [length_rows]
  obtain ⟨marker, opening, hbody, hhead⟩ := h.body
  constructor
  · rw [hrows]
    exact propertyAnchor_insertIdx hline.solid hline.containsText_constructorMarker hindex'
      (fun _ => hbody.closing_row) h.declareAt_eq
  · refine ⟨shifted assignAt marker, shifted assignAt opening, ?_, ?_⟩
    · rw [hrows]
      exact hbody.insertIdx hline.containsText_initializerMarker (fun c hc => hline.ne_brace hc)
        hindex' (Or.inr hbody.opening_lt)
    · rw [shifted, shifted, shifted]
      split_ifs <;> omega
  · exact (stateBefore_insertIdx hindex h.assignAt_code hmask declareAt).trans h.declareAt_code
  · exact (stateBefore_insertIdx hindex h.assignAt_code hmask assignAt).trans h.assignAt_code

end Wireable

/-! ## Lines at two places -/

/-- The lines with further lines in front of the line at `index`. -/
def insertAll (lines : List Line) (index : Nat) (inserted : List Line) : List Line :=
  lines.take index ++ inserted ++ lines.drop index

theorem insertIdx_insertAll {lines : List Line} {index : Nat} (h : index ≤ lines.length)
    (inserted : List Line) (line : Line) :
    (insertAll lines index inserted).insertIdx (index + inserted.length) line =
      insertAll lines index (inserted ++ [line]) := by
  have hlength : index + inserted.length = (lines.take index ++ inserted).length := by
    rw [List.length_append, List.length_take_of_le h]
  rw [insertAll, insertAll, hlength, insertIdx_length_append]
  simp

/-- A line inserted below goes in the same way first. -/
theorem insertIdx_insertAll_below {lines : List Line} {index below : Nat} (h : index ≤ below)
    (hbelow : below ≤ lines.length) (inserted : List Line) (line : Line) :
    (insertAll lines index inserted).insertIdx (below + inserted.length) line =
      insertAll (lines.insertIdx below line) index inserted := by
  obtain ⟨a, b, rfl, rfl⟩ := exists_append_of_le (Nat.le_trans h hbelow)
  obtain ⟨k, rfl⟩ : ∃ k, below = a.length + k := ⟨below - a.length, by omega⟩
  obtain ⟨c, d, rfl, rfl⟩ := exists_append_of_le (show k ≤ b.length by simpa using hbelow)
  have hlength : a.length + c.length + inserted.length = (a ++ inserted ++ c).length := by
    simp only [List.length_append]
    omega
  have hlines : (a ++ (c ++ d)).insertIdx (a.length + c.length) line = a ++ (c ++ line :: d) := by
    rw [← List.append_assoc, ← List.length_append, insertIdx_length_append, List.append_assoc]
  rw [hlines, insertAll, insertAll, List.take_left, List.drop_left, List.take_left,
    List.drop_left, ← List.append_assoc (a ++ inserted), hlength, insertIdx_length_append]
  simp

/-- The lines with declarations and assignments in front of the lines at their places; those at the
lower place go in first, so that the places are those of the lines without them. -/
def weave (lines : List Line) (declareAt assignAt : Nat) (declarations assignments : List Line) :
    List Line :=
  if assignAt < declareAt then
    insertAll (insertAll lines declareAt declarations) assignAt assignments
  else insertAll (insertAll lines assignAt assignments) declareAt declarations

/-- The first place below that many declarations and assignments. -/
def declaredAt (declareAt assignAt declarations assignments : Nat) : Nat :=
  declareAt + declarations + if assignAt < declareAt then assignments else 0

/-- The second place below that many declarations and assignments. -/
def assignedAt (declareAt assignAt declarations assignments : Nat) : Nat :=
  assignAt + assignments + if assignAt < declareAt then 0 else declarations

/-- The lower place stays the lower one. -/
theorem assignedAt_lt_declaredAt (declareAt assignAt m n : Nat) :
    assignedAt declareAt assignAt m n < declaredAt declareAt assignAt m n ↔ assignAt < declareAt := by
  rw [assignedAt, declaredAt]
  split_ifs <;> omega

/-- A declaration that is inserted moves both places. -/
theorem shifted_declaredAt (declareAt assignAt m n : Nat) :
    shifted (declaredAt declareAt assignAt m n) (declaredAt declareAt assignAt m n) =
        declaredAt declareAt assignAt (m + 1) n ∧
      shifted (declaredAt declareAt assignAt m n) (assignedAt declareAt assignAt m n) =
        assignedAt declareAt assignAt (m + 1) n := by
  simp only [shifted, assignedAt_lt_declaredAt, Nat.lt_irrefl, if_false]
  rw [declaredAt, declaredAt, assignedAt, assignedAt]
  constructor <;> split_ifs <;> omega

/-- So does an assignment. -/
theorem shifted_assignedAt {declareAt assignAt : Nat} (h : declareAt ≠ assignAt) (m n : Nat) :
    shifted (assignedAt declareAt assignAt m n) (declaredAt declareAt assignAt m n) =
        declaredAt declareAt assignAt m (n + 1) ∧
      shifted (assignedAt declareAt assignAt m n) (assignedAt declareAt assignAt m n) =
        assignedAt declareAt assignAt m (n + 1) := by
  simp only [shifted, Nat.lt_irrefl, if_false]
  rw [declaredAt, declaredAt, assignedAt, assignedAt]
  constructor <;> split_ifs <;> omega

section Weave

variable {lines : List Line} {declareAt assignAt : Nat} {declarations assignments : List Line}

theorem length_insertAll (lines : List Line) (index : Nat) (inserted : List Line) :
    (insertAll lines index inserted).length = lines.length + inserted.length := by
  simp only [insertAll, List.length_append, List.length_take, List.length_drop]
  omega

theorem mem_insertAll {index : Nat} {inserted : List Line} {line : Line} :
    line ∈ insertAll lines index inserted ↔ line ∈ lines ∨ line ∈ inserted := by
  have hsplit := List.mem_append (a := line) (s := lines.take index) (t := lines.drop index)
  rw [List.take_append_drop] at hsplit
  rw [insertAll, List.mem_append, List.mem_append, hsplit]
  tauto

theorem mem_weave {line : Line} : line ∈ weave lines declareAt assignAt declarations assignments ↔
    line ∈ lines ∨ line ∈ declarations ∨ line ∈ assignments := by
  rw [weave]
  split_ifs
  · rw [mem_insertAll, mem_insertAll, or_assoc]
  · rw [mem_insertAll, mem_insertAll, or_assoc, or_comm (a := line ∈ assignments)]

theorem weave_nil (lines : List Line) (declareAt assignAt : Nat) :
    weave lines declareAt assignAt [] [] = lines := by
  simp [weave, insertAll]

/-- A further declaration stands below the others. -/
theorem weave_declare (hdeclare : declareAt ≤ lines.length) (line : Line) :
    (weave lines declareAt assignAt declarations assignments).insertIdx
        (declaredAt declareAt assignAt declarations.length assignments.length) line =
      weave lines declareAt assignAt (declarations ++ [line]) assignments := by
  rw [weave, weave, declaredAt]
  split_ifs with h
  · rw [insertIdx_insertAll_below (by omega) (by rw [length_insertAll]; omega),
      insertIdx_insertAll hdeclare]
  · rw [Nat.add_zero, insertIdx_insertAll (by rw [length_insertAll]; omega)]

/-- A further assignment stands below the others. -/
theorem weave_assign (hassign : assignAt ≤ lines.length) (line : Line) :
    (weave lines declareAt assignAt declarations assignments).insertIdx
        (assignedAt declareAt assignAt declarations.length assignments.length) line =
      weave lines declareAt assignAt declarations (assignments ++ [line]) := by
  rw [weave, weave, assignedAt]
  split_ifs with h
  · rw [Nat.add_zero, insertIdx_insertAll (by rw [length_insertAll]; omega)]
  · rw [insertIdx_insertAll_below (by omega) (by rw [length_insertAll]; omega),
      insertIdx_insertAll hassign]

end Weave

end PluginWorkshop.Php
