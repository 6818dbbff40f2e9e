import PluginWorkshop.Proofs.Php.Blocks

/-!
# Lines outside all blocks

The line of the plugin object is the first one outside all blocks whose code satisfies a test
(`firstMatch_eq_found`). A line put in the place of another one, with as many braces and the lexer in
the same state behind it, changes no other row (`rows_set`), so that the search meets the lines it met
before, that one apart (`selects_set`).
-/

namespace PluginWorkshop.Php

open Text

/-! ## The first line -/

section FirstMatch

variable {test : Line → Bool} {rows : List Row} {index : Nat}

/-- The line lies outside all blocks, and its code satisfies the test. -/
def Selects (test : Line → Bool) (rows : List Row) (index : Nat) : Prop :=
  ∃ row, rows[index]? = some row ∧ braceBalance (lineStart rows index) = 0 ∧ test row.code = true

theorem getElem?_rowsWithDepth_go (rows : List Row) (start i : Nat) (depth : Int) :
    (rowsWithDepth.go start depth rows)[i]? =
      rows[i]?.map fun row => (start + i, depth + braceBalance (lineStart rows i), row) := by
  induction rows generalizing start depth i with
  | nil => rfl
  | cons row rows ih =>
    rw [rowsWithDepth.go]
    cases i with
    | zero => simp [lineStart, braceBalance]
    | succ i =>
      have hstart : lineStart (row :: rows) (i + 1) = row.code ++ lineStart rows i := rfl
      rw [List.getElem?_cons_succ, List.getElem?_cons_succ, ih, hstart, braceBalance_append,
        Int.add_assoc, Nat.add_right_comm, Nat.add_assoc]

theorem getElem?_rowsWithDepth (rows : List Row) (i : Nat) :
    (rowsWithDepth rows)[i]? =
      rows[i]?.map fun row => (i, braceBalance (lineStart rows i), row) := by
  rw [rowsWithDepth, getElem?_rowsWithDepth_go]
  simp

/-- What the search asks of a line. -/
def isSelected (test : Line → Bool) (entry : Nat × Int × Row) : Bool :=
  entry.2.1 == 0 && test entry.2.2.code

theorem firstMatch_eq (test : Line → Bool) (rows : List Row) :
    firstMatch test true rows =
      match (rowsWithDepth rows).find? (isSelected test) with
      | some (index, _, _) => .found index
      | none => .notFound :=
  rfl

theorem selects_iff : Selects test rows index ↔
    ∃ entry, (rowsWithDepth rows)[index]? = some entry ∧ isSelected test entry = true := by
  rw [getElem?_rowsWithDepth]
  cases hrow : rows[index]? with
  | none => simp [Selects, hrow]
  | some row => simp [Selects, hrow, isSelected]

/-- The line found is the first that the test selects. -/
theorem firstMatch_eq_found : firstMatch test true rows = .found index ↔
    Selects test rows index ∧ ∀ i < index, ¬ Selects test rows i := by
  have hentry : ∀ {i : Nat} {entry : Nat × Int × Row},
      (rowsWithDepth rows)[i]? = some entry → entry.1 = i := by
    intro i entry h
    rw [getElem?_rowsWithDepth, Option.map_eq_some_iff] at h
    obtain ⟨row, -, rfl⟩ := h
    rfl
  rw [firstMatch_eq]
  simp only [selects_iff]
  constructor
  · intro h
    split at h
    case h_2 => cases h
    case h_1 i depth row hfind =>
      obtain rfl := AnchorLookup.found.inj h
      obtain ⟨hselected, j, hj, hget, hbefore⟩ := List.find?_eq_some_iff_getElem.mp hfind
      obtain rfl : i = j := hentry (List.getElem?_eq_some_iff.mpr ⟨hj, hget⟩)
      refine ⟨⟨_, List.getElem?_eq_some_iff.mpr ⟨hj, hget⟩, hselected⟩, ?_⟩
      rintro k hk ⟨entry, hget', hselects⟩
      obtain ⟨_, rfl⟩ := List.getElem?_eq_some_iff.mp hget'
      simpa [hselects] using hbefore k hk
  · rintro ⟨⟨entry, hget, hselected⟩, hbefore⟩
    obtain ⟨hlt, hget'⟩ := List.getElem?_eq_some_iff.mp hget
    have hfind : (rowsWithDepth rows).find? (isSelected test) = some entry := by
      refine List.find?_eq_some_iff_getElem.mpr ⟨hselected, index, hlt, hget', fun j hj => ?_⟩
      rw [Bool.not_eq_true', ← Bool.not_eq_true]
      exact fun hselects => hbefore j hj ⟨_, List.getElem?_eq_getElem (hj.trans hlt), hselects⟩
    rw [hfind]
    exact congrArg AnchorLookup.found (hentry hget)

theorem firstMatch_eq_notFound :
    firstMatch test true rows = .notFound ↔ ∀ i, ¬ Selects test rows i := by
  rw [firstMatch_eq]
  simp only [selects_iff]
  constructor
  · intro h
    split at h
    case h_1 => cases h
    case h_2 hfind =>
      rintro i ⟨entry, hget, hselected⟩
      exact List.find?_eq_none.mp hfind entry (List.mem_of_getElem? hget) hselected
  · intro h
    have hfind : (rowsWithDepth rows).find? (isSelected test) = none := by
      refine List.find?_eq_none.mpr fun entry hmem hselected => ?_
      obtain ⟨i, hget⟩ := List.mem_iff_getElem?.mp hmem
      exact h i ⟨entry, hget, hselected⟩
    rw [hfind]

/-- The line of a file that is selected, and its code. -/
theorem selects_rows {lines : List Line} : Selects test (Php.rows lines) index ↔
    ∃ line, lines[index]? = some line ∧ braceBalance (lineStart (Php.rows lines) index) = 0 ∧
      test (maskLine (stateBefore lines index) line).1 = true := by
  rw [Selects, getElem?_rows]
  cases lines[index]? <;> simp

theorem selects_rows_of_getElem? {lines : List Line} {line : Line}
    (hline : lines[index]? = some line) : Selects test (Php.rows lines) index ↔
      braceBalance (lineStart (Php.rows lines) index) = 0 ∧
        test (maskLine (stateBefore lines index) line).1 = true := by
  rw [selects_rows, hline]
  simp

end FirstMatch

/-! ## The line in the place of another -/

section Replacement

variable {lines : List Line} {index i : Nat} {old line : Line}

theorem exists_append_of_getElem? {α : Type} {l : List α} {x : α} (h : l[index]? = some x) :
    ∃ a b, l = a ++ x :: b ∧ a.length = index := by
  obtain ⟨hlt, rfl⟩ := List.getElem?_eq_some_iff.mp h
  exact ⟨l.take index, l.drop (index + 1), by simp, List.length_take_of_le hlt.le⟩

theorem set_length_append {α : Type} (a b : List α) (x y : α) :
    (a ++ x :: b).set a.length y = a ++ y :: b := by
  rw [List.set_append_right _ _ (Nat.le_refl _), Nat.sub_self, List.set_cons_zero]

/-- A line that leaves the lexer in the state in which the old one did changes no other row. -/
theorem rows_set (hold : lines[index]? = some old)
    (hstate : (maskLine (stateBefore lines index) line).2 =
      (maskLine (stateBefore lines index) old).2) :
    rows (lines.set index line) =
      (rows lines).set index ⟨line, (maskLine (stateBefore lines index) line).1⟩ := by
  obtain ⟨a, b, rfl, rfl⟩ := exists_append_of_getElem? hold
  have hlength : (rowsFrom .code a).length = a.length := length_rows a
  rw [stateBefore_eq, List.take_left] at hstate ⊢
  rw [set_length_append, rows_eq, rows_eq, rowsFrom_append, rowsFrom_append, rowsFrom_cons,
    rowsFrom_cons, hstate, ← hlength, set_length_append]

variable {rows : List Row} {row before : Row}

/-- A row with as many braces changes no depth. -/
theorem braceBalance_lineStart_set (hold : rows[index]? = some before)
    (hbalance : braceBalance row.code = braceBalance before.code) (i : Nat) :
    braceBalance (lineStart (rows.set index row) i) = braceBalance (lineStart rows i) := by
  rcases Nat.lt_or_ge index i with hlt | hle
  · obtain ⟨a, b, rfl, rfl⟩ := exists_append_of_getElem? hold
    obtain ⟨k, rfl⟩ : ∃ k, i = a.length + (k + 1) := ⟨i - a.length - 1, by omega⟩
    rw [set_length_append, lineStart, lineStart, List.take_length_add_append,
      List.take_length_add_append, List.take_succ_cons, List.take_succ_cons]
    simp only [List.flatMap_append, List.flatMap_cons, braceBalance_append, hbalance]
  · rw [lineStart, List.take_set_of_le hle, ← lineStart]

/-- The search meets every other line as before. -/
theorem selects_set {test : Line → Bool} (hold : rows[index]? = some before)
    (hbalance : braceBalance row.code = braceBalance before.code) :
    Selects test (rows.set index row) i ↔
      if i = index then braceBalance (lineStart rows index) = 0 ∧ test row.code = true
      else Selects test rows i := by
  rw [Selects, braceBalance_lineStart_set hold hbalance]
  split_ifs with hi
  · subst hi
    rw [List.getElem?_set_self (List.getElem?_eq_some_iff.mp hold).1]
    simp
  · rw [List.getElem?_set_ne (Ne.symm hi)]
    rfl

/-- A line with as many braces that leaves the lexer in the same state is itself all that the search
meets anew. -/
theorem selects_rows_set {test : Line → Bool} (hold : lines[index]? = some old)
    (hstate : (maskLine (stateBefore lines index) line).2 =
      (maskLine (stateBefore lines index) old).2)
    (hbalance : braceBalance (maskLine (stateBefore lines index) line).1 =
      braceBalance (maskLine (stateBefore lines index) old).1) :
    Selects test (Php.rows (lines.set index line)) i ↔
      if i = index then braceBalance (lineStart (Php.rows lines) index) = 0 ∧
        test (maskLine (stateBefore lines index) line).1 = true
      else Selects test (Php.rows lines) i := by
  have hrow : (Php.rows lines)[index]? = some ⟨old, (maskLine (stateBefore lines index) old).1⟩ := by
    rw [getElem?_rows, hold]
    rfl
  rw [rows_set hold hstate]
  exact selects_set hrow hbalance

end Replacement

end PluginWorkshop.Php
