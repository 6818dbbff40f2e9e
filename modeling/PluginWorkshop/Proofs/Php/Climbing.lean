import PluginWorkshop.Proofs.Php.Masking
import PluginWorkshop.Proofs.Text.Splitting
import PluginWorkshop.Proofs.Text.Trimming
import Mathlib.Data.List.TakeWhile

/-!
# The way up from the constructor

A line of code without brackets stops the way up from the constructor, or is one of the lines that a
long attribute takes. Inserted where a property goes, or anywhere above, it moves the property
anchor down with the lines below it (`climb_insert_above`); inserted above another such line on the
way, it leaves the anchor where it is (`climb_insert_within`).
-/

namespace PluginWorkshop.Php

open Text

/-! ## Markers -/

/-- The number of a line once another line is inserted at `index`. -/
def shifted (index line : Nat) : Nat := if line < index then line else line + 1

/-- The lines with the marker, counted from `start`. -/
def markerLinesFrom (start : Nat) (marker : Line) (rows : List Row) : List Nat :=
  ((rows.zipIdx start).filter fun (row, _) => containsText marker row.code).map Prod.snd

theorem markerLinesFrom_cons (start : Nat) (marker : Line) (row : Row) (rows : List Row) :
    markerLinesFrom start marker (row :: rows) =
      if containsText marker row.code then start :: markerLinesFrom (start + 1) marker rows
      else markerLinesFrom (start + 1) marker rows := by
  rw [markerLinesFrom, List.zipIdx_cons, List.filter_cons]
  split_ifs <;> rfl

/-- A line without the marker moves the lines below it. -/
theorem markerLinesFrom_insertIdx {marker : Line} {row : Row}
    (hrow : containsText marker row.code = false) {rows : List Row} :
    ∀ index start : Nat, index ≤ rows.length →
      markerLinesFrom start marker (rows.insertIdx index row) =
        (markerLinesFrom start marker rows).map (shifted (start + index)) := by
  have hmoved : ∀ (rows : List Row) (start index : Nat), index ≤ start →
      markerLinesFrom (start + 1) marker rows =
        (markerLinesFrom start marker rows).map (shifted index) := by
    intro rows
    induction rows with
    | nil => intros; rfl
    | cons head rows ih =>
      intro start index h
      rw [markerLinesFrom_cons, markerLinesFrom_cons, ih (start + 1) index (by omega)]
      split_ifs
      · rw [List.map_cons, shifted, if_neg (by omega)]
      · rfl
  induction rows with
  | nil =>
    intro index start h
    obtain rfl : index = 0 := by simpa using h
    simp [markerLinesFrom, hrow]
  | cons head rows ih =>
    intro index start h
    cases index with
    | zero =>
      rw [List.insertIdx_zero, markerLinesFrom_cons, if_neg (by simp [hrow]),
        hmoved _ start (start + 0) (by omega)]
    | succ index =>
      have hrest := ih index (start + 1) (Nat.le_of_succ_le_succ h)
      rw [List.insertIdx_succ_cons, markerLinesFrom_cons, markerLinesFrom_cons, hrest,
        show start + 1 + index = start + (index + 1) by omega]
      split_ifs
      · rw [List.map_cons, shifted, if_pos (by omega)]
      · rfl

theorem markerLines_insertIdx {marker : Line} {rows : List Row} {index : Nat} {row : Row}
    (hindex : index ≤ rows.length) (hrow : containsText marker row.code = false) :
    markerLines marker (rows.insertIdx index row) =
      (markerLines marker rows).map (shifted index) := by
  have h := markerLinesFrom_insertIdx hrow index 0 hindex
  rwa [Nat.zero_add] at h

theorem uniqueMarker_eq_ok {marker : Line} {rows : List Row} {line : Nat} :
    uniqueMarker marker rows = .ok line ↔ markerLines marker rows = [line] := by
  rw [uniqueMarker]
  split <;> simp_all

theorem uniqueMarker_insertIdx {marker : Line} {rows : List Row} {index line : Nat} {row : Row}
    (hindex : index ≤ rows.length) (hrow : containsText marker row.code = false)
    (h : uniqueMarker marker rows = .ok line) :
    uniqueMarker marker (rows.insertIdx index row) = .ok (shifted index line) := by
  rw [uniqueMarker_eq_ok] at h ⊢
  rw [markerLines_insertIdx hindex hrow, h]
  rfl

theorem containsText_of_uniqueMarker {marker : Line} {rows : List Row} {line : Nat}
    (h : uniqueMarker marker rows = .ok line) :
    ∃ row, rows[line]? = some row ∧ containsText marker row.code = true := by
  rw [uniqueMarker_eq_ok] at h
  have hmem : line ∈ markerLines marker rows := by simp [h]
  obtain ⟨⟨row, i⟩, hpair, rfl⟩ := List.mem_map.mp hmem
  obtain ⟨hrow, hcontains⟩ := List.mem_filter.mp hpair
  exact ⟨row, List.mk_mem_zipIdx_iff_getElem?.mp hrow, hcontains⟩

/-! ## Blocks -/

namespace Row

/-- There is code on the line, and no bracket in it. -/
def Solid (row : Row) : Prop := row.isCodeless = false ∧ '[' ∉ row.code ∧ ']' ∉ row.code

end Row

variable {row r c : Row} {above U V V' : List Row} {count last depth : Nat}

theorem blockAbove_of_solid (h : row.Solid) : blockAbove (row :: above) = .boundary := by
  have hend : (trim row.code).getLast? ≠ some ']' := fun hlast =>
    h.2.2 ((trim_sublist row.code).subset (List.mem_of_getLast? hlast))
  simp [blockAbove, h.1, hend]

theorem blockLines_of_solid (h : row.Solid) : blockLines (row :: above) = .ok none := by
  rw [blockLines, blockAbove_of_solid h]

/-! ## Attributes -/

attribute [local simp] scanAttributes

/-- Text without brackets leaves the count of brackets as it is. -/
theorem scanAttributes_of_notMem {s : List Char} (hopen : '[' ∉ s) (hclose : ']' ∉ s) :
    scanAttributes (depth + 1) s = .pending (depth + 1) := by
  induction s with
  | nil => simp
  | cons d s ih =>
    rw [List.mem_cons, not_or] at hopen hclose
    rw [scanAttributes.eq_def]
    split <;> simp_all

/-- Outside all brackets it is other code. -/
theorem scanAttributes_zero {s : List Char} (hclose : ']' ∉ s) (hcode : s.all isBlank = false) :
    scanAttributes 0 s = .rejected := by
  induction s with
  | nil => simp at hcode
  | cons d s ih =>
    rw [List.mem_cons, not_or] at hclose
    rw [scanAttributes.eq_3 _ _ fun heq => hclose.1 heq.symm]
    split_ifs with hblank
    · exact ih hclose.2 (by simpa [hblank] using hcode)
    · rfl

theorem scanAttributes_of_solid (h : row.Solid) :
    scanAttributes depth row.code.reverse = if depth = 0 then .rejected else .pending depth := by
  obtain ⟨hcode, hopen, hclose⟩ := h
  cases depth with
  | zero =>
    exact scanAttributes_zero (by simpa using hclose) (by simpa [Row.isCodeless, isAllBlank] using hcode)
  | succ depth => exact scanAttributes_of_notMem (by simpa using hopen) (by simpa using hclose)

theorem attributeLines_cons : attributeLines last depth (row :: above) = .ok count ↔
    scanAttributes depth row.code.reverse = .opened ∧ count = 1 ∨
      ∃ depth' n, scanAttributes depth row.code.reverse = .pending depth' ∧
        attributeLines last depth' above = .ok n ∧ count = n + 1 := by
  rw [attributeLines]
  cases scanAttributes depth row.code.reverse with
  | opened => simp [eq_comm]
  | rejected => simp
  | pending depth' =>
    dsimp only
    generalize hrest : attributeLines last depth' above = rest
    cases rest with
    | error e => simp [hrest, Except.map]
    | ok n => simp [hrest, Except.map, eq_comm]

theorem attributeLines_pos (h : attributeLines last depth above = .ok count) : 0 < count := by
  cases above with
  | nil => cases h
  | cons row above =>
    rw [attributeLines_cons] at h
    rcases h with ⟨-, rfl⟩ | ⟨_, n, -, -, rfl⟩
    · exact Nat.one_pos
    · exact Nat.succ_pos n

/-- Only the error depends on the number of the last line. -/
theorem attributeLines_of_last (h : attributeLines last depth above = .ok count) (last' : Nat) :
    attributeLines last' depth above = .ok count := by
  induction above generalizing depth count with
  | nil => cases h
  | cons row above ih =>
    rw [attributeLines_cons] at h ⊢
    refine h.imp id ?_
    rintro ⟨depth', n, hscan, hrest, rfl⟩
    exact ⟨depth', n, hscan, ih hrest, rfl⟩

/-- The lines that attributes take do not depend on what stands above them. -/
theorem attributeLines_append (h : attributeLines last depth (U ++ V) = .ok count)
    (hcount : count ≤ U.length) : attributeLines last depth (U ++ V') = .ok count := by
  induction U generalizing depth count with
  | nil =>
    have hpos := attributeLines_pos h
    rw [List.length_nil] at hcount
    omega
  | cons row U ih =>
    rw [List.cons_append, attributeLines_cons] at h ⊢
    refine h.imp id ?_
    rintro ⟨depth', n, hscan, hrest, rfl⟩
    exact ⟨depth', n, hscan, ih hrest (by simpa using hcount), rfl⟩

/-- Where attributes take a solid line, they take another one above it too. -/
theorem attributeLines_insert (hc : c.Solid) (hr : r.Solid)
    (h : attributeLines last depth (U ++ c :: V) = .ok count) (hcount : U.length < count) :
    attributeLines last depth (U ++ c :: r :: V) = .ok (count + 1) ∧ U.length + 1 < count := by
  induction U generalizing depth count with
  | nil =>
    rw [List.nil_append, attributeLines_cons, scanAttributes_of_solid hc] at h
    rcases h with ⟨hopened, -⟩ | ⟨depth', n, hpending, hrest, rfl⟩
    · split_ifs at hopened
    split_ifs at hpending with hdepth
    obtain rfl : depth = depth' := by simpa using hpending
    have hn := attributeLines_pos hrest
    have hrest' : attributeLines last depth (r :: V) = .ok (n + 1) := by
      rw [attributeLines_cons, scanAttributes_of_solid hr, if_neg hdepth]
      exact Or.inr ⟨depth, n, rfl, hrest, rfl⟩
    refine ⟨?_, by simpa using hn⟩
    rw [List.nil_append, attributeLines_cons, scanAttributes_of_solid hc, if_neg hdepth]
    exact Or.inr ⟨depth, n + 1, rfl, hrest', rfl⟩
  | cons row U ih =>
    rw [List.cons_append, attributeLines_cons] at h ⊢
    rcases h with ⟨-, rfl⟩ | ⟨depth', n, hscan, hrest, rfl⟩
    · simp at hcount
    obtain ⟨hrest', hn⟩ := ih hrest (by simpa using hcount)
    exact ⟨Or.inr ⟨depth', n + 1, hscan, hrest', rfl⟩, by simpa using hn⟩

/-! ## The block right above -/

/-- A comment takes all comment lines and opens on the last of them; attributes count brackets. -/
theorem blockLines_cons : blockLines (row :: above) = .ok (some count) ↔
    row.isCommentOnly = true ∧
        count = ((row :: above).takeWhile Row.isCommentOnly).length ∧
        (∃ first, (row :: above)[count - 1]? = some first ∧ opensComment first.text = true) ∨
      row.isCodeless = false ∧ (trim row.code).getLast? = some ']' ∧
        attributeLines above.length 0 (row :: above) = .ok count := by
  rw [blockLines, blockAbove]
  cases hcode : row.isCodeless with
  | true =>
    cases hblank : isAllBlank row.text with
    | true => simp [Row.isCommentOnly, hcode, hblank]
    | false =>
      have hcomment : row.isCommentOnly = true := by simp [Row.isCommentOnly, hcode, hblank]
      simp only [↓reduceIte, Bool.false_eq_true, hcomment, true_and, false_and, or_false,
        reduceCtorEq]
      generalize ((row :: above).takeWhile Row.isCommentOnly).length = n
      cases hfirst : (row :: above)[n - 1]? with
      | none =>
        refine iff_of_false (by simp) ?_
        rintro ⟨rfl, first, hsome, -⟩
        simp [hfirst] at hsome
      | some first =>
        dsimp only
        split_ifs with hopens
        · refine ⟨?_, ?_⟩
          · rintro ⟨⟩
            exact ⟨rfl, first, hfirst, hopens⟩
          · rintro ⟨rfl, -⟩
            rfl
        · refine iff_of_false (by simp) ?_
          rintro ⟨rfl, first', hsome, hopens'⟩
          obtain rfl : first = first' := Option.some.inj (hfirst.symm.trans hsome)
          exact hopens hopens'
  | false =>
    have hcomment : row.isCommentOnly = false := by simp [Row.isCommentOnly, hcode]
    simp only [hcomment, Bool.false_eq_true, ↓reduceIte, false_and, false_or, true_and]
    split_ifs with hend
    · dsimp only
      rw [List.length_cons, Nat.add_sub_cancel]
      cases attributeLines above.length 0 (row :: above) <;> simp [hend]
    · simp [hend]

/-- Whether a block ends right above can be seen from the nearest line. -/
theorem blockLines_eq_none : blockLines (row :: above) = .ok none ↔
    row.isCommentOnly = false ∧ ¬ (row.isCodeless = false ∧ (trim row.code).getLast? = some ']') := by
  rw [blockLines, blockAbove]
  cases hcode : row.isCodeless with
  | true =>
    cases hblank : isAllBlank row.text with
    | true => simp [Row.isCommentOnly, hcode, hblank]
    | false =>
      have hcomment : row.isCommentOnly = true := by simp [Row.isCommentOnly, hcode, hblank]
      refine iff_of_false ?_ (by simp [hcomment])
      simp only [↓reduceIte, Bool.false_eq_true]
      have hlength := (List.takeWhile_sublist Row.isCommentOnly (l := row :: above)).length_le
      have hpos : 0 < ((row :: above).takeWhile Row.isCommentOnly).length := by
        rw [List.takeWhile_cons_of_pos hcomment]
        exact Nat.succ_pos _
      rw [List.getElem?_eq_getElem (by omega)]
      dsimp only
      split_ifs <;> simp
  | false =>
    have hcomment : row.isCommentOnly = false := by simp [Row.isCommentOnly, hcode]
    simp only [hcomment, Bool.false_eq_true, ↓reduceIte, true_and]
    split_ifs with hend
    · dsimp only
      cases attributeLines ((row :: above).length - 1) 0 (row :: above) <;> simp [hend]
    · simp [hend]

theorem attributeLines_le (h : attributeLines last depth above = .ok count) :
    count ≤ above.length := by
  induction above generalizing depth count with
  | nil => cases h
  | cons row above ih =>
    rw [attributeLines_cons] at h
    rcases h with ⟨-, rfl⟩ | ⟨_, n, -, hrest, rfl⟩
    · exact Nat.succ_le_succ (Nat.zero_le _)
    · exact Nat.succ_le_succ (ih hrest)

theorem blockLines_le (h : blockLines above = .ok (some count)) : count ≤ above.length := by
  cases above with
  | nil => cases h
  | cons row above =>
    rw [blockLines_cons] at h
    rcases h with ⟨-, rfl, -⟩ | ⟨-, -, h⟩
    · exact (List.takeWhile_sublist Row.isCommentOnly).length_le
    · exact attributeLines_le h

theorem blockLines_pos (h : blockLines above = .ok (some count)) : 0 < count := by
  cases above with
  | nil => cases h
  | cons row above =>
    rw [blockLines_cons] at h
    rcases h with ⟨hcomment, rfl, -⟩ | ⟨-, -, h⟩
    · rw [List.takeWhile_cons_of_pos hcomment]
      exact Nat.succ_pos _
    · exact attributeLines_pos h

theorem blockLines_ne_found {n : Nat} : blockLines above ≠ .error (.found n) := by
  rw [blockLines]
  split
  · simp
  · split
    · split <;> simp
    · simp
  · split <;> simp

/-- Comment lines that end before `V` end there whatever stands above. -/
theorem takeWhile_append_of_le {p : Row → Bool} (hcount : ((U ++ V).takeWhile p).length ≤ U.length)
    (hV' : ∀ row ∈ V'.head?, p row = false) : (U ++ V').takeWhile p = (U ++ V).takeWhile p := by
  have hnone : V'.takeWhile p = [] := by
    cases V' with
    | nil => rfl
    | cons row V' => exact List.takeWhile_cons_of_neg (by simpa using hV' row rfl)
  rw [List.takeWhile_append, List.takeWhile_append, hnone]
  rw [List.takeWhile_append] at hcount
  split_ifs at hcount ⊢ with hall
  · rw [List.length_append] at hcount
    obtain hV : V.takeWhile p = [] := List.length_eq_zero_iff.mp (by omega)
    rw [hV]
  · rfl

/-- The block right above stays the same when something else stands above it. -/
theorem blockLines_append (h : blockLines (U ++ V) = .ok (some count)) (hcount : count ≤ U.length)
    (hV' : ∀ row ∈ V'.head?, row.isCommentOnly = false) :
    blockLines (U ++ V') = .ok (some count) := by
  have hpos := blockLines_pos h
  cases U with
  | nil =>
    rw [List.length_nil] at hcount
    omega
  | cons row U =>
    rw [List.cons_append] at h ⊢
    rw [blockLines_cons] at h ⊢
    rcases h with ⟨hcomment, hlength, first, hfirst, hopens⟩ | ⟨hcode, hend, hlines⟩
    · have htake := takeWhile_append_of_le (U := row :: U) (hlength ▸ hcount) hV'
      refine Or.inl ⟨hcomment, ?_, first, ?_, hopens⟩
      · exact hlength.trans (congrArg List.length htake).symm
      · rw [← List.cons_append] at hfirst ⊢
        rw [List.getElem?_append_left (by omega)] at hfirst ⊢
        exact hfirst
    · refine Or.inr ⟨hcode, hend, ?_⟩
      have hlines' : attributeLines (U ++ V).length 0 (row :: U ++ V') = .ok count :=
        attributeLines_append hlines hcount
      exact attributeLines_of_last hlines' _

/-- Attributes right above that take a solid line take another one above it too. -/
theorem blockLines_insert (hc : c.Solid) (hr : r.Solid)
    (h : blockLines (U ++ c :: V) = .ok (some count)) (hcount : U.length < count) :
    blockLines (U ++ c :: r :: V) = .ok (some (count + 1)) ∧ U.length + 1 < count := by
  cases U with
  | nil =>
    rw [List.nil_append, blockLines_of_solid hc] at h
    cases h
  | cons row U =>
    rw [List.cons_append] at h ⊢
    rw [blockLines_cons] at h ⊢
    rcases h with ⟨hcomment, rfl, -⟩ | ⟨hcode, hend, hlines⟩
    · -- A comment does not take a line of code.
      have hc' : c.isCommentOnly = false := by simp [Row.isCommentOnly, hc.1]
      have hnone : (c :: V).takeWhile Row.isCommentOnly = [] :=
        List.takeWhile_cons_of_neg (by simp [hc'])
      rw [← List.cons_append, List.takeWhile_append, hnone] at hcount
      have hle := (List.takeWhile_sublist Row.isCommentOnly (l := row :: U)).length_le
      split_ifs at hcount
      · simp at hcount
      · omega
    · obtain ⟨hlines', hlength⟩ := attributeLines_insert (U := row :: U) hc hr hlines hcount
      exact ⟨Or.inr ⟨hcode, hend, attributeLines_of_last hlines' _⟩, hlength⟩

/-! ## The climb -/

/-- Going up finds the end of the lines, or goes on above a block. -/
theorem climb_eq_found {n : Nat} : climb above = .found n ↔
    blockLines above = .ok none ∧ above.length = n ∨
      ∃ count, blockLines above = .ok (some count) ∧ climb (above.drop count) = .found n := by
  rw [climb]
  cases hblock : blockLines above with
  | error lookup =>
    refine iff_of_false ?_ (by simp)
    rintro rfl
    exact blockLines_ne_found hblock
  | ok block =>
    cases block with
    | none => simp
    | some count =>
      have hne : above ≠ [] := by
        rintro rfl
        cases hblock
      dsimp only
      rw [dif_pos ⟨blockLines_pos hblock, hne⟩]
      simp

theorem climb_le {n : Nat} (h : climb above = .found n) : n ≤ above.length := by
  induction hlength : above.length using Nat.strong_induction_on generalizing above with
  | _ length ih =>
    subst hlength
    rw [climb_eq_found] at h
    rcases h with ⟨-, rfl⟩ | ⟨count, hblock, h⟩
    · exact Nat.le_refl _
    · have hne : above ≠ [] := by
        rintro rfl
        cases hblock
      have hpos := blockLines_pos hblock
      have hlength := List.length_pos_iff.mpr hne
      have hdrop : (above.drop count).length = above.length - count := List.length_drop
      have hle := ih _ (by omega) h rfl
      omega

/-- A solid line at the place that is reached, or above it, moves that place down. -/
theorem climb_insert_above {n : Nat} (hr : r.Solid) (h : climb (U ++ V) = .found n)
    (hn : V.length ≤ n) : climb (U ++ r :: V) = .found (n + 1) := by
  induction hlength : U.length using Nat.strong_induction_on generalizing U with
  | _ length ih =>
    subst hlength
    rw [climb_eq_found] at h
    rcases h with ⟨hblock, rfl⟩ | ⟨count, hblock, h⟩
    · refine climb_eq_found.mpr (Or.inl ⟨?_, by simp only [List.length_append, List.length_cons]; omega⟩)
      cases U with
      | nil => exact blockLines_of_solid hr
      | cons row U => exact blockLines_eq_none.mpr (blockLines_eq_none.mp hblock)
    · have hpos := blockLines_pos hblock
      have htaken := blockLines_le hblock
      have hle := climb_le h
      rw [List.length_append] at htaken
      rw [List.length_drop, List.length_append] at hle
      have hcount : count ≤ U.length := by omega
      have hblock' : blockLines (U ++ r :: V) = .ok (some count) :=
        blockLines_append hblock hcount (by simp [Row.isCommentOnly, hr.1])
      rw [climb_eq_found]
      refine Or.inr ⟨count, hblock', ?_⟩
      rw [List.drop_append_of_le_length hcount] at h ⊢
      exact ih _ (by rw [List.length_drop]; omega) h rfl

/-- A solid line above another one on the way leaves the place that is reached where it is. -/
theorem climb_insert_within {n : Nat} (hc : c.Solid) (hr : r.Solid)
    (h : climb (U ++ c :: V) = .found n) (hn : n ≤ V.length) :
    climb (U ++ c :: r :: V) = .found n := by
  induction hlength : U.length using Nat.strong_induction_on generalizing U with
  | _ length ih =>
    subst hlength
    rw [climb_eq_found] at h
    rcases h with ⟨-, rfl⟩ | ⟨count, hblock, h⟩
    · simp only [List.length_append, List.length_cons] at hn
      omega
    · have hpos := blockLines_pos hblock
      by_cases hcount : count ≤ U.length
      · have hblock' : blockLines (U ++ c :: r :: V) = .ok (some count) :=
          blockLines_append hblock hcount (by simp [Row.isCommentOnly, hc.1])
        rw [climb_eq_found]
        refine Or.inr ⟨count, hblock', ?_⟩
        rw [List.drop_append_of_le_length hcount] at h ⊢
        exact ih _ (by rw [List.length_drop]; omega) h rfl
      · obtain ⟨hblock', hlength⟩ := blockLines_insert hc hr hblock (by omega)
        rw [climb_eq_found]
        refine Or.inr ⟨count + 1, hblock', ?_⟩
        -- Both lines are taken, so that the rest is the same.
        obtain ⟨k, rfl⟩ : ∃ k, count = U.length + (k + 1) := ⟨count - U.length - 1, by omega⟩
        rw [List.drop_length_add_append, List.drop_succ_cons] at h
        rw [Nat.add_assoc, List.drop_length_add_append, List.drop_succ_cons]
        obtain ⟨k, rfl⟩ : ∃ j, k = j + 1 := ⟨k - 1, by omega⟩
        exact h

/-! ## The property anchor -/

variable {rows : List Row} {anchor index : Nat}

theorem uniqueMarker_ne_found {marker : Line} {n : Nat} :
    uniqueMarker marker rows ≠ .error (.found n) := by
  rw [uniqueMarker]
  split <;> simp

theorem propertyAnchor_eq_found : propertyAnchor rows = .found anchor ↔
    ∃ line, uniqueMarker constructorMarker rows = .ok line ∧
      climb (rows.take line).reverse = .found anchor := by
  rw [propertyAnchor]
  cases hmarker : uniqueMarker constructorMarker rows with
  | error lookup =>
    refine iff_of_false ?_ (by simp)
    rintro rfl
    exact uniqueMarker_ne_found hmarker
  | ok line => simp

theorem propertyAnchor_lt (h : propertyAnchor rows = .found anchor) : anchor < rows.length := by
  rw [propertyAnchor_eq_found] at h
  obtain ⟨line, hmarker, hclimb⟩ := h
  obtain ⟨row, hrow, -⟩ := containsText_of_uniqueMarker hmarker
  have hline := (List.getElem?_eq_some_iff.mp hrow).1
  have hle := climb_le hclimb
  rw [List.length_reverse, List.length_take] at hle
  omega

/-- A solid line that is not the constructor's, and the way up from there over it. -/
theorem exists_climb_over {a b : List Row} {line : Nat} (hc : containsText constructorMarker c.code = false)
    (hmarker : uniqueMarker constructorMarker (a ++ c :: b) = .ok line) (hline : a.length ≤ line) :
    ∃ k, line = a.length + (k + 1) ∧
      ((a ++ c :: b).take line).reverse = (b.take k).reverse ++ c :: a.reverse := by
  have hne : line ≠ a.length := by
    rintro rfl
    obtain ⟨row, hrow, hcontains⟩ := containsText_of_uniqueMarker hmarker
    obtain rfl : c = row := by simpa using hrow
    simp [hc] at hcontains
  obtain ⟨k, rfl⟩ : ∃ k, line = a.length + (k + 1) := ⟨line - a.length - 1, by omega⟩
  refine ⟨k, rfl, ?_⟩
  rw [List.take_length_add_append, List.take_succ_cons]
  simp

/-- A solid line moves the property anchor as it moves the other lines. -/
theorem propertyAnchor_insertIdx (hr : r.Solid)
    (hmarker : containsText constructorMarker r.code = false) (hindex : index ≤ rows.length)
    (hc : anchor < index → ∃ c, rows[index]? = some c ∧ c.Solid ∧
      containsText constructorMarker c.code = false)
    (h : propertyAnchor rows = .found anchor) :
    propertyAnchor (rows.insertIdx index r) = .found (shifted index anchor) := by
  rw [propertyAnchor_eq_found] at h ⊢
  obtain ⟨line, hline, hclimb⟩ := h
  refine ⟨_, uniqueMarker_insertIdx hindex hmarker hline, ?_⟩
  have hle := climb_le hclimb
  rw [List.length_reverse, List.length_take] at hle
  rw [shifted, shifted]
  obtain ⟨a, b, rfl, rfl⟩ := exists_append_of_le hindex
  by_cases hbelow : line < a.length
  · rw [if_pos hbelow, if_pos (by omega), List.take_insertIdx_eq_take_of_le _ _ _ _ (by omega)]
    exact hclimb
  · rw [if_neg hbelow, insertIdx_length_append]
    by_cases hanchor : anchor < a.length
    · obtain ⟨c, hrow, hsolid, hnone⟩ := hc hanchor
      obtain ⟨b, rfl⟩ : ∃ rest, b = c :: rest := by
        cases b with
        | nil => simp at hrow
        | cons d rest => exact ⟨rest, by simpa using hrow⟩
      obtain ⟨k, rfl, hreverse⟩ := exists_climb_over hnone hline (by omega)
      rw [hreverse] at hclimb
      rw [if_pos hanchor, show a.length + (k + 1) + 1 = a.length + (k + 1 + 1) by omega,
        List.take_length_add_append, List.take_succ_cons, List.take_succ_cons]
      simpa using climb_insert_within hsolid hr hclimb (by simp; omega)
    · obtain ⟨k, rfl⟩ : ∃ k, line = a.length + k := ⟨line - a.length, by omega⟩
      rw [List.take_length_add_append, List.reverse_append] at hclimb
      rw [if_neg hanchor, show a.length + k + 1 = a.length + (k + 1) by omega,
        List.take_length_add_append, List.take_succ_cons]
      simpa using climb_insert_above hr hclimb (by simp; omega)

/-- The line in front of which a property is declared is none of solid code. -/
theorem propertyAnchor_ne (h : propertyAnchor rows = .found anchor) (hrow : rows[index]? = some c)
    (hc : c.Solid) (hnone : containsText constructorMarker c.code = false) : anchor ≠ index := by
  rintro rfl
  rw [propertyAnchor_eq_found] at h
  obtain ⟨line, hline, hclimb⟩ := h
  have hle := climb_le hclimb
  rw [List.length_reverse, List.length_take] at hle
  obtain ⟨a, b, rfl, rfl⟩ : ∃ a b, rows = a ++ c :: b ∧ a.length = anchor := by
    obtain ⟨hlt, rfl⟩ := List.getElem?_eq_some_iff.mp hrow
    exact ⟨rows.take anchor, rows.drop (anchor + 1), by simp, List.length_take_of_le (by omega)⟩
  obtain ⟨k, rfl, hreverse⟩ := exists_climb_over hnone hline (by omega)
  rw [hreverse] at hclimb
  -- Another such line above it would move the anchor, and would not.
  have hwithin := climb_insert_within hc hc hclimb (by simp)
  have habove : climb ((b.take k).reverse ++ [c] ++ c :: a.reverse) = .found (a.length + 1) :=
    climb_insert_above hc (by simpa using hclimb) (by simp)
  rw [List.append_assoc] at habove
  have := hwithin.symm.trans habove
  simp at this

end PluginWorkshop.Php
