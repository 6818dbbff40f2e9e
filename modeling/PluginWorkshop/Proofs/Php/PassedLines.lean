import PluginWorkshop.Proofs.Php.BoundLines
import PluginWorkshop.Proofs.Php.Presence

/-!
# Lines that are passed over

The plugin object is created and assigned on the first line outside all blocks that satisfies a
test. A line that leaves the lexer in the state in which it finds it, opens and closes no block and
does not satisfy the test (`Passed`) may be inserted anywhere: the search finds the line that it
found before, moved down with the others (`selects_insertLines`). The lines of a wiring are of this kind, wherever
the search for their places gets to, in a comment or in a string too
(`passed_of_mem_wiringInsertions`).
-/

namespace PluginWorkshop.Php

open Text

variable {test : Line → Bool} {state : LexState} {name line : Line} {c : Char}

/-! ## One line -/

/-- The line, which starts in `state`, makes no difference to a search by the test. -/
structure Passed (test : Line → Bool) (state : LexState) (line : Line) : Prop where
  state_eq : (maskLine state line).2 = state
  balance_eq : braceBalance (maskLine state line).1 = 0
  test_eq : test (maskLine state line).1 = false

section Rows

variable {rows : List Row} {row : Row} {index i j : Nat}

theorem exists_shifted_eq (h : j ≠ index) : ∃ i, shifted index i = j := by
  rcases Nat.lt_or_gt_of_ne h with hlt | hgt
  · exact ⟨j, shifted_of_lt hlt⟩
  · exact ⟨j - 1, by rw [shifted_of_le (by omega)]; omega⟩

theorem braceBalance_lineStart_insertIdx (hindex : index ≤ rows.length)
    (hbalance : braceBalance row.code = 0) (i : Nat) :
    braceBalance (lineStart (rows.insertIdx index row) (shifted index i)) =
      braceBalance (lineStart rows i) := by
  obtain ⟨a, b, rfl, rfl⟩ := exists_append_of_le hindex
  rw [insertIdx_length_append, shifted, lineStart, lineStart]
  split_ifs with hi
  · rw [List.take_append_of_le_length hi.le, List.take_append_of_le_length hi.le]
  · obtain ⟨k, rfl⟩ : ∃ k, i = a.length + k := ⟨i - a.length, by omega⟩
    rw [Nat.add_assoc, List.take_length_add_append, List.take_length_add_append,
      List.take_succ_cons]
    simp only [List.flatMap_append, List.flatMap_cons, braceBalance_append, hbalance, Int.zero_add]

/-- The search meets the lines it met before, and not the inserted one. -/
theorem selects_insertIdx (hindex : index ≤ rows.length) (hbalance : braceBalance row.code = 0)
    (htest : test row.code = false) :
    Selects test (rows.insertIdx index row) j ↔ ∃ i, shifted index i = j ∧ Selects test rows i := by
  have hshifted : ∀ i, Selects test (rows.insertIdx index row) (shifted index i) ↔
      Selects test rows i := by
    intro i
    rw [Selects, Selects, getElem?_insertIdx_shifted,
      braceBalance_lineStart_insertIdx hindex hbalance]
  constructor
  · intro h
    have hne : j ≠ index := by
      rintro rfl
      obtain ⟨row', hrow, -, hselected⟩ := h
      rw [List.getElem?_insertIdx_self, if_pos hindex] at hrow
      obtain rfl := Option.some.inj hrow
      simp [htest] at hselected
    obtain ⟨i, rfl⟩ := exists_shifted_eq hne
    exact ⟨i, rfl, (hshifted i).mp h⟩
  · rintro ⟨i, rfl, h⟩
    exact (hshifted i).mpr h

theorem selects_rows_insertIdx {lines : List Line} (hindex : index ≤ lines.length)
    (hline : Passed test (stateBefore lines index) line) :
    Selects test (Php.rows (lines.insertIdx index line)) j ↔
      ∃ i, shifted index i = j ∧ Selects test (Php.rows lines) i := by
  rw [rows_insertIdx_of_state_eq hindex hline.state_eq]
  exact selects_insertIdx (by rwa [length_rows]) hline.balance_eq hline.test_eq

end Rows

/-! ## Inserted lines -/

/-- The number of a line once other lines are inserted. -/
def movedBy (insertions : List Insertion) (line : Nat) : Nat :=
  insertions.foldr (fun i line => shifted i.index line) line

section Insertions

variable {source : SourceText} {insertions : List Insertion} {i j k : Nat}

theorem movedBy_cons (i : Insertion) (insertions : List Insertion) (line : Nat) :
    movedBy (i :: insertions) line = shifted i.index (movedBy insertions line) := rfl

theorem movedBy_lt_movedBy : movedBy insertions i < movedBy insertions j ↔ i < j := by
  induction insertions with
  | nil => rfl
  | cons _ insertions ih => rw [movedBy_cons, movedBy_cons, shifted_lt_shifted, ih]

theorem getElem?_movedBy (source : SourceText) (insertions : List Insertion) (line : Nat) :
    (insertLines source insertions).lines[movedBy insertions line]? = source.lines[line]? := by
  induction insertions with
  | nil => rfl
  | cons i insertions ih =>
    rw [insertLines_cons, movedBy_cons, SourceText.insert]
    exact (getElem?_insertIdx_shifted _ _ _).trans ih

theorem set_insertIdx_shifted {lines : List Line} (hk : k ≤ lines.length) (x y : Line) (j : Nat) :
    (lines.insertIdx k x).set (shifted k j) y = (lines.set j y).insertIdx k x := by
  obtain ⟨a, b, rfl, rfl⟩ := exists_append_of_le hk
  rw [insertIdx_length_append, shifted]
  split_ifs with hj
  · rw [List.set_append_left _ _ hj, List.set_append_left _ _ hj]
    have hlength : (a.set j y).length = a.length := List.length_set
    rw [← hlength, insertIdx_length_append]
  · obtain ⟨m, rfl⟩ : ∃ m, j = a.length + m := ⟨j - a.length, by omega⟩
    rw [Nat.add_assoc, List.set_append_right _ _ (by omega), List.set_append_right _ _ (by omega),
      insertIdx_length_append, Nat.add_sub_cancel_left, Nat.add_sub_cancel_left, List.set_cons_succ]

/-- A line may be replaced before others are inserted, or afterwards where it has been moved to. -/
theorem replace_insertLines (h : Insertable source insertions) (j : Nat) (line : Line) :
    (insertLines source insertions).replace (movedBy insertions j) line =
      insertLines (source.replace j line) insertions := by
  induction insertions with
  | nil => rfl
  | cons i insertions ih =>
    rw [insertLines_cons, insertLines_cons, ← ih h.tail, movedBy_cons]
    simp only [SourceText.insert, SourceText.replace,
      set_insertIdx_shifted (Nat.le_of_lt h.head_lt)]

theorem take_insertLines (h : ∀ i ∈ insertions, k ≤ i.index) :
    (insertLines source insertions).lines.take k = source.lines.take k := by
  induction insertions with
  | nil => rfl
  | cons i insertions ih =>
    rw [insertLines_cons, SourceText.insert,
      List.take_insertIdx_eq_take_of_le _ _ _ _ (h i List.mem_cons_self)]
    exact ih fun j hj => h j (List.mem_cons_of_mem i hj)

/-- The search meets the lines it met before. -/
theorem selects_insertLines (h : Insertable source insertions)
    (hpassed : ∀ i ∈ insertions, Passed test (stateBefore source.lines i.index) i.line) :
    Selects test (rows (insertLines source insertions).lines) j ↔
      ∃ i, movedBy insertions i = j ∧ Selects test (rows source.lines) i := by
  induction insertions generalizing j with
  | nil => simp [insertLines, movedBy]
  | cons i insertions ih =>
    have hbelow : ∀ j ∈ insertions, i.index ≤ j.index := fun j hj =>
      Nat.le_of_lt ((List.pairwise_cons.mp h.ascending).1 j hj)
    have hstate : stateBefore (insertLines source insertions).lines i.index =
        stateBefore source.lines i.index := by
      rw [stateBefore_eq, stateBefore_eq, take_insertLines hbelow]
    have hline := hpassed i List.mem_cons_self
    rw [← hstate] at hline
    rw [insertLines_cons, SourceText.insert, selects_rows_insertIdx (Nat.le_of_lt h.head_lt) hline]
    have ih := fun {j} => @ih j h.tail fun k hk => hpassed k (List.mem_cons_of_mem i hk)
    simp only [ih, movedBy_cons]
    constructor
    · rintro ⟨_, rfl, k, rfl, hk⟩
      exact ⟨k, rfl, hk⟩
    · rintro ⟨k, rfl, hk⟩
      exact ⟨_, rfl, k, rfl, hk⟩

theorem firstMatch_insertLines (h : Insertable source insertions)
    (hpassed : ∀ i ∈ insertions, Passed test (stateBefore source.lines i.index) i.line)
    (hfound : firstMatch test true (rows source.lines) = .found k) :
    firstMatch test true (rows (insertLines source insertions).lines) =
      .found (movedBy insertions k) := by
  obtain ⟨hselected, hbefore⟩ := firstMatch_eq_found.mp hfound
  refine firstMatch_eq_found.mpr ⟨(selects_insertLines h hpassed).mpr ⟨k, rfl, hselected⟩, ?_⟩
  intro j hj hselects
  obtain ⟨i, rfl, hi⟩ := (selects_insertLines h hpassed).mp hselects
  exact hbefore i (movedBy_lt_movedBy.mp hj) hi

end Insertions

/-! ## Lines in texts -/

/-- A string goes on over a line without its delimiter and without a backslash. -/
theorem maskLine_quoted_of_notMem {delimiter : Char} {inside : LexState}
    (hinside : step inside = stepQuoted delimiter inside) (hdelimiter : delimiter ∉ line)
    (hslash : '\\' ∉ line) : maskLine inside line = (blanked line, inside) := by
  induction line with
  | nil => rfl
  | cons c line ih =>
    rw [List.mem_cons, not_or] at hdelimiter hslash
    have hstep : step inside c line.head? = .blank inside := by
      rw [hinside, stepQuoted, if_neg fun h => hslash.1 h.1.symm, if_neg (Ne.symm hdelimiter.1)]
    rw [maskLine_cons_of_blank hstep, ih hdelimiter.2 hslash.2]
    rfl

/-- A comment goes on over a line that does not end it. -/
theorem maskLine_blockComment (h : ¬ EndsComment line) :
    maskLine .blockComment line = (blanked line, .blockComment) := by
  induction line with
  | nil => rfl
  | cons c line ih =>
    rw [EndsComment, List.infix_cons_iff, not_or] at h
    have hstep : step .blockComment c line.head? = .blank .blockComment := by
      rw [step, if_neg]
      rintro ⟨rfl, hslash⟩
      obtain ⟨rest, rfl⟩ := List.head?_eq_some_iff.mp hslash
      exact h.1 ⟨rest, rfl⟩
    rw [maskLine_cons_of_blank hstep, ih h.2]
    rfl

/-- The tests by which the plugin object is looked for. -/
def instanceTests (name : Line) : List (Line → Bool) := [instantiates, bindsNew name]

/-- Code that satisfies one of them starts with a letter or a dollar sign. -/
theorem head?_of_mem_instanceTests (htest : test ∈ instanceTests name) {code : Line}
    (h : test code = true) :
    (dropBlanks code).head? = some 'n' ∨ (dropBlanks code).head? = some '$' := by
  simp only [instanceTests, List.mem_cons, List.not_mem_nil, or_false] at htest
  rcases htest with rfl | rfl
  · exact Or.inl (head?_of_instantiates h)
  · exact Or.inr (head?_of_bindsNew h)

/-- A line that is swallowed is passed over. -/
theorem passed_of_blanked (htest : test ∈ instanceTests name)
    (h : maskLine state line = (blanked line, state)) : Passed test state line := by
  have hspace : ∀ c ∈ blanked line, isBlank c = true := fun _ => isBlank_of_mem_blanked
  constructor
  · rw [h]
  · rw [h]
    exact braceBalance_of_notMem (fun hmem => absurd (hspace _ hmem) (by decide))
      (fun hmem => absurd (hspace _ hmem) (by decide))
  · rw [h, ← Bool.not_eq_true]
    intro hcode
    have hnil : dropBlanks (blanked line) = [] := List.dropWhile_eq_nil_iff.mpr hspace
    simpa [hnil] using head?_of_mem_instanceTests htest hcode

/-! ## The lines of a wiring -/

section Wired

variable {property statement indent : Line}

theorem passed_of_inert {code : Line} (hline : Inert line code) (htest : test code = false) :
    Passed test .code line := by
  have hmask := hline.lexes.maskLine_eq
  constructor
  · rw [hmask]
  · rw [hmask]
    exact braceBalance_of_notMem (fun hmem => (hline.ne_brace hmem).1 rfl)
      (fun hmem => (hline.ne_brace hmem).2 rfl)
  · rwa [hmask]

/-- What is assigned to a property of the object is not assigned to a variable. -/
theorem not_test_arrow (hname : isIdentifier name = true) (htest : test ∈ instanceTests name)
    (hindent : ∀ c ∈ indent, isSpaceOrTab c = true) (rest : Line) :
    ¬ test (indent ++ "$this->".toList ++ rest) = true := by
  intro hselected
  have hdrop : dropBlanks (indent ++ "$this->".toList ++ rest) =
      '$' :: ("this".toList ++ '-' :: '>' :: rest) := by
    rw [List.append_assoc, dropBlanks_append fun c hc =>
      isBlank_of_isSpaceOrTab (hindent c hc)]
    rfl
  simp only [instanceTests, List.mem_cons, List.not_mem_nil, or_false] at htest
  rcases htest with rfl | rfl
  · have hhead := head?_of_instantiates hselected
    rw [hdrop] at hhead
    cases hhead
  · obtain ⟨_, hoperand⟩ := Option.isSome_iff_exists.mp hselected
    obtain ⟨value, hvalue, -⟩ := Option.bind_eq_some_iff.mp hoperand
    obtain ⟨a, b, ha, -, hcode⟩ := boundValue?_eq_some hvalue
    rw [hcode, List.append_assoc, List.append_assoc,
      dropBlanks_append fun _ => isBlank_of_mem_indentation, List.cons_append,
      dropBlanks, List.dropWhile_cons_of_neg (by decide)] at hdrop
    have htail := (List.cons.inj hdrop).2
    have hpart : ∀ e ∈ name, isIdentifierPart e = true := fun _ => isIdentifierPart_of_mem hname
    have hthis : ∀ e ∈ "this".toList, isIdentifierPart e = true :=
      List.all_eq_true.mp (by decide)
    cases a with
    | nil =>
      exact absurd (eq_of_name_append hpart hthis (by decide) (by decide) htail) (by decide)
    | cons d a =>
      have hblank := ha d List.mem_cons_self
      have hd : isIdentifierPart d = false := Bool.eq_false_iff.mpr fun hd => by
        simp [isBlank_of_isIdentifierPart hd] at hblank
      obtain rfl := eq_of_name_append hpart hthis hd (by decide) htail
      cases hblank

/-- A declaration is passed over wherever it is put. -/
theorem ClassTexts.passed_declaration (htexts : ClassTexts property statement)
    (htest : test ∈ instanceTests name) (hindent : ∀ c ∈ indent, isSpaceOrTab c = true)
    (state : LexState) : Passed test state (indent ++ property) := by
  obtain ⟨code, hcode⟩ := htexts.property_wirable.indented hindent
  obtain ⟨variableName, hvariable, rfl⟩ := htexts.property_eq
  have hnone : ∀ c, isIdentifierPart c = false → isSpaceOrTab c = false →
      c ∉ "public $".toList ++ ";".toList →
      c ∉ indent ++ ("public $".toList ++ variableName ++ ";".toList) := by
    intro c hpart hspace hliteral
    simp only [List.mem_append, not_or] at hliteral ⊢
    refine ⟨fun hmem => ?_, ⟨hliteral.1, notMem_of_isIdentifier hpart hvariable⟩, hliteral.2⟩
    simp [hindent c hmem] at hspace
  cases state with
  | code =>
    refine passed_of_inert hcode (Bool.eq_false_iff.mpr fun hselected => ?_)
    have hfront : (dropBlanks (indent ++ ("public $".toList ++ variableName ++ ";".toList))).head? =
        some 'p' := by
      rw [dropBlanks_append fun c hc => isBlank_of_isSpaceOrTab (hindent c hc)]
      rfl
    have hhead := head?_dropBlanks_maskLine (by decide) hfront
    have hstart := head?_of_mem_instanceTests htest hselected
    rw [hcode.lexes.maskLine_eq] at hhead
    rw [hhead] at hstart
    simp at hstart
  | singleQuoted =>
    exact passed_of_blanked htest (maskLine_quoted_of_notMem rfl
      (hnone _ (by decide) (by decide) (by decide)) (hnone _ (by decide) (by decide) (by decide)))
  | doubleQuoted =>
    exact passed_of_blanked htest (maskLine_quoted_of_notMem rfl
      (hnone _ (by decide) (by decide) (by decide)) (hnone _ (by decide) (by decide) (by decide)))
  | blockComment =>
    refine passed_of_blanked htest (maskLine_blockComment fun hend => ?_)
    exact hnone '*' (by decide) (by decide) (by decide) (hend.subset (by decide))

/-- A statement is passed over in code and in comments. -/
theorem ClassTexts.passed_statement (htexts : ClassTexts property statement)
    (hname : isIdentifier name = true)
    (htest : test ∈ instanceTests name) (hindent : ∀ c ∈ indent, isSpaceOrTab c = true)
    (hstate : state = .code ∨ state = .blockComment) : Passed test state (indent ++ statement) := by
  rcases hstate with rfl | rfl
  · obtain ⟨code, hcode⟩ := htexts.statement_wirable.indented hindent
    obtain ⟨rest, rfl⟩ := htexts.statement_eq
    refine passed_of_inert hcode (Bool.eq_false_iff.mpr fun hselected => ?_)
    have hinert : ∀ c ∈ indent ++ "$this->".toList, isInert c = true := by
      intro c hc
      rcases List.mem_append.mp hc with hc | hc
      · exact isInert_of_isBlank (isBlank_of_isSpaceOrTab (hindent c hc))
      · exact List.all_eq_true.mp (by decide) c hc
    have hmask := hcode.lexes.maskLine_eq
    rw [← List.append_assoc, maskLine_inert_append (Or.inl rfl) hinert] at hmask
    obtain rfl := (Prod.mk.inj hmask).1
    exact not_test_arrow hname htest hindent _ hselected
  · refine passed_of_blanked htest (maskLine_blockComment ?_)
    have hstar : '*' ∉ indent := fun hmem => absurd (hindent _ hmem) (by decide)
    rw [endsComment_append_iff hstar]
    exact htexts.not_endsComment

theorem mem_missing {text : Line} {lines : List Line} {t : Line} (h : t ∈ missing text lines) :
    t = text := by
  rw [missing] at h
  split_ifs at h
  · cases h
  · exact List.mem_singleton.mp h

theorem passed_of_mem_missing {index : Nat} {indent text : Line} {lines : List Line}
    (h : Passed test (stateBefore lines index) (indent ++ text)) :
    ∀ i ∈ ((missing text lines).map (indent ++ ·)).map (Insertion.mk index),
      Passed test (stateBefore lines i.index) i.line := by
  intro i hi
  obtain ⟨_, hline, rfl⟩ := List.mem_map.mp hi
  obtain ⟨_, ht, rfl⟩ := List.mem_map.mp hline
  rw [mem_missing ht]
  exact h

/-- What a wiring inserts is passed over where it is inserted. -/
theorem passed_of_mem_wiringInsertions {path : Path} {lines : List Line}
    {insertions : List Insertion} (htexts : ClassTexts property statement)
    (hname : isIdentifier name = true) (htest : test ∈ instanceTests name)
    (h : wiringInsertions path lines property statement = .ok insertions) :
    ∀ i ∈ insertions, Passed test (stateBefore lines i.index) i.line := by
  obtain ⟨D, A, hdeclare, hassign⟩ := exists_places_of_wiringInsertions h
  rw [wiringInsertions_eq path hdeclare hassign] at h
  obtain rfl := Except.ok.inj h
  have hdeclared : Passed test (stateBefore lines D) (indentation (lines[D]?.getD []) ++ property) :=
    htexts.passed_declaration htest (fun _ => isSpaceOrTab_of_mem_indentation) _
  have hassigned : Passed test (stateBefore lines A) (bodyIndentation lines A ++ statement) := by
    refine htexts.passed_statement hname htest (fun _ => isSpaceOrTab_of_mem_bodyIndentation) ?_
    by_cases hcode : stateBefore lines A = .code
    · exact Or.inl hcode
    · exact Or.inr (overrun_of_initializerEnd hassign hcode).1
  dsimp only
  split_ifs
  · exact List.forall_mem_append.mpr
      ⟨passed_of_mem_missing hassigned, passed_of_mem_missing hdeclared⟩
  · exact List.forall_mem_append.mpr
      ⟨passed_of_mem_missing hdeclared, passed_of_mem_missing hassigned⟩

end Wired

end PluginWorkshop.Php
