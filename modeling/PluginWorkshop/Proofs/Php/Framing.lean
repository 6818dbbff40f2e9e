import PluginWorkshop.Proofs.Php.Instances
import PluginWorkshop.Proofs.Php.Wiring

/-!
# The frame of an edit

An edit of a bootstrap file inserts lines at given places or replaces one line, and keeps all other
lines (`plan_framed`). Lines that are inserted at places listed from the top down are found at the
numbers that are reported for them (`getElem?_insertLines`), and without them the lines are what they
were (`withoutLines_insertLines`). A line that is replaced ends as the one before, so that the lines
are read again as they were written.
-/

namespace PluginWorkshop.Php

open Text

/-! ## Lines with numbers -/

/-- The lines without those that bear one of the numbers; the first line bears the number `start`. -/
def withoutFrom (start : Nat) (numbers : List Nat) (lines : List Line) : List Line :=
  ((lines.zipIdx start).filter fun (_, number) => !numbers.contains number).map Prod.fst

/-- The lines without those that bear one of the numbers, counted from 1. -/
def withoutLines (numbers : List Nat) (lines : List Line) : List Line := withoutFrom 1 numbers lines

section Numbers

variable {start : Nat} {numbers : List Nat} {line : Line} {lines a b : List Line}

theorem withoutFrom_nil (start : Nat) (lines : List Line) : withoutFrom start [] lines = lines := by
  simp [withoutFrom]

theorem withoutFrom_cons : withoutFrom start numbers (line :: lines) =
    (if start ∈ numbers then [] else [line]) ++ withoutFrom (start + 1) numbers lines := by
  rw [withoutFrom, withoutFrom, List.zipIdx_cons, List.filter_cons]
  by_cases h : start ∈ numbers <;> simp [h]

theorem withoutFrom_append : withoutFrom start numbers (a ++ b) =
    withoutFrom start numbers a ++ withoutFrom (start + a.length) numbers b := by
  simp [withoutFrom, List.zipIdx_append]

/-- Numbers that come after all lines take none away. -/
theorem withoutFrom_of_le (h : ∀ n ∈ numbers, start + lines.length ≤ n) :
    withoutFrom start numbers lines = lines := by
  induction lines generalizing start with
  | nil => rfl
  | cons line lines ih =>
    rw [List.length_cons] at h
    have hstart : start ∉ numbers := fun hmem => by
      have := h start hmem
      omega
    have hrest := @ih (start + 1) fun n hn => by
      have := h n hn
      omega
    rw [withoutFrom_cons, if_neg hstart, hrest, List.singleton_append]

/-- Lines and numbers may be counted on together. -/
theorem withoutFrom_succ : withoutFrom (start + 1) (numbers.map (· + 1)) lines =
    withoutFrom start numbers lines := by
  induction lines generalizing start with
  | nil => rfl
  | cons line lines ih => simp [withoutFrom_cons, ih]

/-- A number before all lines takes none away. -/
theorem withoutFrom_of_lt {n : Nat} (h : n < start) :
    withoutFrom start (n :: numbers) lines = withoutFrom start numbers lines := by
  induction lines generalizing start with
  | nil => rfl
  | cons line lines ih =>
    have hne : start ≠ n := by omega
    rw [withoutFrom_cons, withoutFrom_cons, ih (Nat.lt_succ_of_lt h)]
    simp [hne]

/-- A line inserted above the other numbers is taken away by its own. -/
theorem withoutLines_insertIdx {index : Nat} (hindex : index ≤ lines.length)
    (h : ∀ n ∈ numbers, index < n) :
    withoutLines ((index + 1) :: numbers.map (· + 1)) (lines.insertIdx index line) =
      withoutLines numbers lines := by
  obtain ⟨a, b, rfl, rfl⟩ := exists_append_of_le hindex
  have habove : withoutFrom 1 ((a.length + 1) :: numbers.map (· + 1)) a = a := by
    refine withoutFrom_of_le fun n hn => ?_
    rcases List.mem_cons.mp hn with rfl | hn
    · omega
    · obtain ⟨m, hm, rfl⟩ := List.mem_map.mp hn
      have := h m hm
      omega
  have habove' : withoutFrom 1 numbers a = a := withoutFrom_of_le fun n hn => by
    have := h n hn
    omega
  rw [insertIdx_length_append, withoutLines, withoutLines, withoutFrom_append, withoutFrom_append,
    withoutFrom_cons, habove, habove', Nat.add_comm 1 a.length, if_pos List.mem_cons_self,
    List.nil_append, withoutFrom_of_lt (Nat.lt_succ_self _), withoutFrom_succ]

end Numbers

/-! ## Inserted lines -/

/-- The changes of insertions before which `earlier` lines are inserted. -/
def changesFrom (earlier : Nat) (insertions : List Insertion) : List LineChange :=
  (insertions.zipIdx earlier).map fun (i, earlier) =>
    ⟨i.index + earlier + 1, .inserted, String.ofList i.line⟩

/-- Lines that may be inserted in front of the lines of a file, listed from the top down. -/
structure Insertable (source : SourceText) (insertions : List Insertion) : Prop where
  ascending : insertions.Pairwise fun i j => i.index < j.index
  index_lt : ∀ i ∈ insertions, i.index < source.lines.length
  newline_notMem : ∀ i ∈ insertions, '\n' ∉ i.line
  getLast?_ne : ∀ i ∈ insertions, i.line.getLast? ≠ some '\r'

section Inserted

variable {source : SourceText} {insertions : List Insertion} {i : Insertion}

theorem insertionChanges_eq (insertions : List Insertion) :
    insertionChanges insertions = changesFrom 0 insertions := rfl

theorem changesFrom_cons (earlier : Nat) : changesFrom earlier (i :: insertions) =
    ⟨i.index + earlier + 1, .inserted, String.ofList i.line⟩ ::
      changesFrom (earlier + 1) insertions := by
  rw [changesFrom, List.zipIdx_cons, List.map_cons]
  rfl

/-- The change once another line is inserted above it. -/
def LineChange.movedDown (change : LineChange) : LineChange := { change with line := change.line + 1 }

theorem changesFrom_succ (earlier : Nat) (insertions : List Insertion) :
    changesFrom (earlier + 1) insertions =
      (changesFrom earlier insertions).map LineChange.movedDown := by
  induction insertions generalizing earlier with
  | nil => rfl
  | cons i insertions ih =>
    rw [changesFrom_cons, changesFrom_cons, ih, List.map_cons]
    rfl

theorem pos_of_mem_changesFrom {earlier : Nat} {change : LineChange}
    (h : change ∈ changesFrom earlier insertions) : 0 < change.line := by
  obtain ⟨⟨i, count⟩, -, rfl⟩ := List.mem_map.mp h
  exact Nat.succ_pos _

theorem insertLines_cons : insertLines source (i :: insertions) =
    (insertLines source insertions).insert i.index i.line := rfl

theorem length_insertLines_ge (source : SourceText) (insertions : List Insertion) :
    source.lines.length ≤ (insertLines source insertions).lines.length := by
  induction insertions with
  | nil => exact Nat.le_refl _
  | cons i insertions ih =>
    rw [insertLines_cons, SourceText.insert]
    exact ih.trans List.length_le_length_insertIdx

namespace Insertable

theorem tail (h : Insertable source (i :: insertions)) : Insertable source insertions :=
  ⟨(List.pairwise_cons.mp h.ascending).2, fun j hj => h.index_lt j (List.mem_cons_of_mem i hj),
    fun j hj => h.newline_notMem j (List.mem_cons_of_mem i hj),
    fun j hj => h.getLast?_ne j (List.mem_cons_of_mem i hj)⟩

theorem head_lt (h : Insertable source (i :: insertions)) :
    i.index < (insertLines source insertions).lines.length :=
  Nat.lt_of_lt_of_le (h.index_lt i List.mem_cons_self) (length_insertLines_ge source insertions)

/-- Every later insertion is reported below the place of the first one. -/
theorem head_lt_line (h : Insertable source (i :: insertions)) {change : LineChange}
    (hchange : change ∈ changesFrom 0 insertions) : i.index + 1 < change.line := by
  obtain ⟨⟨j, earlier⟩, hj, rfl⟩ := List.mem_map.mp hchange
  have := (List.pairwise_cons.mp h.ascending).1 j (List.fst_mem_of_mem_zipIdx hj)
  dsimp only
  omega

theorem sound (h : Insertable source insertions) (hs : source.Sound) :
    (insertLines source insertions).Sound := by
  induction insertions with
  | nil => exact hs
  | cons i insertions ih =>
    rw [insertLines_cons]
    exact (ih h.tail).insert h.head_lt (h.newline_notMem i List.mem_cons_self)
      (h.getLast?_ne i List.mem_cons_self)

theorem pairwise_changesFrom (h : Insertable source insertions) :
    (changesFrom 0 insertions).Pairwise fun a b => a.line < b.line := by
  induction insertions with
  | nil => exact List.Pairwise.nil
  | cons i insertions ih =>
    rw [changesFrom_cons, changesFrom_succ, List.pairwise_cons, List.pairwise_map]
    refine ⟨fun change hchange => ?_, (ih h.tail).imp Nat.succ_lt_succ⟩
    obtain ⟨later, hlater, rfl⟩ := List.mem_map.mp hchange
    have := h.head_lt_line hlater
    exact Nat.lt_succ_of_lt this

/-- An inserted line is found at the number that is reported for it. -/
theorem getElem?_insertLines (h : Insertable source insertions) {change : LineChange}
    (hchange : change ∈ changesFrom 0 insertions) :
    (insertLines source insertions).lines[change.line - 1]? = some change.text.toList := by
  induction insertions generalizing change with
  | nil => cases hchange
  | cons i insertions ih =>
    rw [insertLines_cons, SourceText.insert]
    rw [changesFrom_cons, changesFrom_succ] at hchange
    rcases List.mem_cons.mp hchange with rfl | hchange
    · dsimp only
      rw [String.toList_ofList, Nat.add_sub_cancel, Nat.add_zero,
        List.getElem?_insertIdx_self, if_pos (Nat.le_of_lt h.head_lt)]
    · -- The first insertion moves the other lines down.
      obtain ⟨later, hlater, rfl⟩ := List.mem_map.mp hchange
      have hlt := h.head_lt_line hlater
      have hmoved := @getElem?_insertIdx_shifted i.index _
        (insertLines source insertions).lines i.line (later.line - 1)
      rw [shifted_of_le (by omega), ih h.tail hlater] at hmoved
      have hnumber : later.movedDown.line - 1 = later.line - 1 + 1 := by
        rw [LineChange.movedDown, Nat.add_sub_cancel]
        omega
      rw [hnumber]
      exact hmoved

/-- Without the inserted lines the lines are what they were. -/
theorem withoutLines_insertLines (h : Insertable source insertions) :
    withoutLines ((changesFrom 0 insertions).map LineChange.line)
      (insertLines source insertions).lines = source.lines := by
  induction insertions with
  | nil => exact withoutFrom_nil 1 source.lines
  | cons i insertions ih =>
    have hmoved : ((changesFrom 0 insertions).map LineChange.movedDown).map LineChange.line =
        ((changesFrom 0 insertions).map LineChange.line).map (· + 1) := by
      rw [List.map_map, List.map_map]
      rfl
    rw [insertLines_cons, SourceText.insert, changesFrom_cons, changesFrom_succ, List.map_cons,
      hmoved]
    refine (withoutLines_insertIdx (Nat.le_of_lt h.head_lt) fun n hn => ?_).trans (ih h.tail)
    obtain ⟨later, hlater, rfl⟩ := List.mem_map.mp hn
    have := h.head_lt_line hlater
    omega

end Insertable

end Inserted

/-! ## A replaced line -/

section Replaced

variable {source : SourceText} {index : Nat} {old line : Line}

/-- A line that ends as the one in its place leaves the lines sound. -/
theorem SourceText.Sound.replace (hs : source.Sound) (hold : source.lines[index]? = some old)
    (hnewline : '\n' ∉ line) (hne : line ≠ []) (hlast : line.getLast? = old.getLast?) :
    (source.replace index line).Sound := by
  have hmem : ∀ l ∈ source.lines.set index line, l = line ∨ l ∈ source.lines := fun l hl =>
    (List.mem_or_eq_of_mem_set hl).symm
  have hold' := List.mem_of_getElem? hold
  constructor
  · exact List.ne_nil_of_mem (List.mem_set (List.getElem?_eq_some_iff.mp hold).1 line)
  · intro l hl
    rcases hmem l hl with rfl | hl
    · exact hnewline
    · exact hs.newline_notMem l hl
  · intro htrailing l hl
    change (source.lines.set index line).getLast? = some l at hl
    rw [List.getLast?_eq_getElem?, List.length_set, List.getElem?_set] at hl
    split_ifs at hl with hindex
    · obtain rfl := Option.some.inj hl
      have hold : source.lines.getLast? = some old := by
        rw [List.getLast?_eq_getElem?, ← hindex, hold]
      exact ⟨hne, hlast ▸ (hs.last_line htrailing old hold).2⟩
    · rw [← List.getLast?_eq_getElem?] at hl
      exact hs.last_line htrailing l hl
  · intro hending l hl
    rcases hmem l hl with rfl | hl
    · rw [hlast]
      exact hs.return_of_lf hending old hold'
    · exact hs.return_of_lf hending l hl
  · intro hending
    exact (hs.of_crlf hending).imp id fun hlength => by rwa [SourceText.replace, List.length_set]

end Replaced

/-! ## Edits -/

/-- What is put on a line is on one line, and a variable has the name of one. -/
def BootstrapEdit.WellFormed : BootstrapEdit → Prop
  | wireClass property statement =>
    ∀ text ∈ [property, statement], '\n' ∉ text.toList ∧ '\r' ∉ text.toList
  | bindInstance name | unbindInstance name => isIdentifier name.toList = true

instance : DecidablePred BootstrapEdit.WellFormed
  | .wireClass property statement =>
    inferInstanceAs (Decidable (∀ text ∈ [property, statement], '\n' ∉ text.toList ∧ '\r' ∉ text.toList))
  | .bindInstance name | .unbindInstance name =>
    inferInstanceAs (Decidable (isIdentifier name.toList = true))

/-- The change is the text inserted behind an indentation. -/
def LineChange.Inserts (change : LineChange) (text : Line) : Prop :=
  change.kind = .inserted ∧
    ∃ indent, (∀ c ∈ indent, isSpaceOrTab c = true) ∧ change.text.toList = indent ++ text

/-- A line at most is replaced, and the changes report it. -/
def Replaces (before after : List Line) (changes : List LineChange) : Prop :=
  after.length = before.length ∧ changes.length ≤ 1 ∧
    (∀ change ∈ changes, change.kind = .replaced) ∧
    ∀ i, (∀ change ∈ changes, change.line ≠ i + 1) → after[i]? = before[i]?

/-- How an edit that reports `changes` takes `before` to `after`. -/
def BootstrapEdit.Keeps (before after : List Line) (changes : List LineChange) :
    BootstrapEdit → Prop
  | wireClass property statement =>
    (∃ declared assigned : Option LineChange, changes.Perm (declared.toList ++ assigned.toList) ∧
      (∀ change ∈ declared, change.Inserts property.toList) ∧
      ∀ change ∈ assigned, change.Inserts statement.toList) ∧
    withoutLines (changes.map LineChange.line) after = before
  | bindInstance _ | unbindInstance _ => Replaces before after changes

/-- The outcome of an edit of a text, where each line that is changed is reported and the others are
kept. -/
structure Framed (text : String) (edit : BootstrapEdit) (outcome : PatchOutcome) : Prop where
  ascending : outcome.changes.Pairwise fun a b => a.line < b.line
  reported : ∀ change ∈ outcome.changes, 0 < change.line ∧
    (SourceText.parse outcome.content).lines[change.line - 1]? = some change.text.toList
  kept : edit.Keeps (SourceText.parse text).lines (SourceText.parse outcome.content).lines
    outcome.changes
  /-- The line ending of the text stands between all lines. -/
  content_eq : outcome.content.toList =
    join (LineEnding.detect text.toList).chars (SourceText.parse outcome.content).lines ++
      if endsWithNewline text.toList then (LineEnding.detect text.toList).chars else []
  trailing : endsWithNewline outcome.content.toList = endsWithNewline text.toList

/-- The file with other lines. -/
def SourceText.withLines (source : SourceText) (lines : List Line) : SourceText :=
  { source with lines := lines }

section Edits

variable {text : String} {edit : BootstrapEdit} {lines : List Line} {changes : List LineChange}

/-- Sound lines are the lines of the outcome. -/
theorem framed_of_sound (lines : List Line)
    (hs : ((SourceText.parse text).withLines lines).Sound)
    (hascending : changes.Pairwise fun a b => a.line < b.line)
    (hreported : ∀ change ∈ changes, 0 < change.line ∧
      lines[change.line - 1]? = some change.text.toList)
    (hkept : edit.Keeps (SourceText.parse text).lines lines changes) :
    Framed text edit ⟨((SourceText.parse text).withLines lines).render, changes⟩ := by
  have hparse := SourceText.parse_render hs
  constructor
  · exact hascending
  · rwa [hparse]
  · rwa [hparse]
  · rw [hparse]
    exact String.toList_ofList
  · exact congrArg SourceText.trailingNewline hparse

theorem insertLines_eq (source : SourceText) (insertions : List Insertion) :
    insertLines source insertions = source.withLines (insertLines source insertions).lines := by
  induction insertions with
  | nil => rfl
  | cons i insertions ih =>
    rw [insertLines_cons, SourceText.insert, ih]
    rfl

/-! ### Wiring a class -/

theorem changesFrom_append (earlier : Nat) (a b : List Insertion) :
    changesFrom earlier (a ++ b) = changesFrom earlier a ++ changesFrom (earlier + a.length) b := by
  rw [changesFrom, List.zipIdx_append, List.map_append]
  rfl

theorem length_missing_le (text : Line) (lines : List Line) : (missing text lines).length ≤ 1 := by
  rw [missing]
  split_ifs <;> simp

/-- What is missing is reported as it is inserted. -/
theorem exists_change_missing (text indent : Line)
    (hindent : ∀ c ∈ indent, isSpaceOrTab c = true) (lines : List Line) (index earlier : Nat) :
    ∃ inserted : Option LineChange,
      changesFrom earlier (((missing text lines).map (indent ++ ·)).map (Insertion.mk index)) =
        inserted.toList ∧
      (inserted = none ↔ isPresent text lines = true) ∧
      ∀ change ∈ inserted, change.Inserts text := by
  rw [missing]
  split_ifs with hpresent
  · exact ⟨none, rfl, by simp [hpresent], fun _ h => by cases h⟩
  · refine ⟨some ⟨index + earlier + 1, .inserted, String.ofList (indent ++ text)⟩, rfl,
      by simp [hpresent], ?_⟩
    rintro change ⟨⟩
    exact ⟨rfl, indent, hindent, String.toList_ofList⟩

/-- A wiring reports a line for either text that is not there yet. -/
theorem exists_changes_of_wiringInsertions {path : Path} {property statement : Line}
    {insertions : List Insertion} (h : wiringInsertions path lines property statement = .ok insertions) :
    ∃ declared assigned : Option LineChange,
      (changesFrom 0 insertions).Perm (declared.toList ++ assigned.toList) ∧
      (declared = none ↔ isPresent property lines = true) ∧
      (assigned = none ↔ isPresent statement lines = true) ∧
      (∀ change ∈ declared, change.Inserts property) ∧
      ∀ change ∈ assigned, change.Inserts statement := by
  obtain ⟨D, A, hdeclare, hassign⟩ := exists_places_of_wiringInsertions h
  rw [wiringInsertions_eq path hdeclare hassign] at h
  obtain rfl := Except.ok.inj h
  have hdeclared := exists_change_missing property (indentation (lines[D]?.getD []))
    (fun _ => isSpaceOrTab_of_mem_indentation) lines D
  have hassigned := exists_change_missing statement (bodyIndentation lines A)
    (fun _ => isSpaceOrTab_of_mem_bodyIndentation) lines A
  dsimp only
  split_ifs with hlt
  · obtain ⟨assigned, hassigned, hnone, hinserts⟩ := hassigned 0
    rw [changesFrom_append, hassigned]
    obtain ⟨declared, hdeclared, hnone', hinserts'⟩ := hdeclared (0 + _)
    rw [hdeclared]
    exact ⟨declared, assigned, List.perm_append_comm, hnone', hnone, hinserts', hinserts⟩
  · obtain ⟨declared, hdeclared, hnone, hinserts⟩ := hdeclared 0
    rw [changesFrom_append, hdeclared]
    obtain ⟨assigned, hassigned, hnone', hinserts'⟩ := hassigned (0 + _)
    rw [hassigned]
    exact ⟨declared, assigned, .rfl, hnone, hnone', hinserts, hinserts'⟩

/-- A text that stays on one line behind an indentation. -/
def IsOneLine (text : Line) : Prop := '\n' ∉ text ∧ text.getLast? ≠ some '\r'

theorem isOneLine_of_notMem {text : Line} (h : '\n' ∉ text ∧ '\r' ∉ text) : IsOneLine text :=
  ⟨h.1, fun hlast => h.2 (List.mem_of_getLast? hlast)⟩

theorem IsOneLine.indented {text indent : Line} (h : IsOneLine text)
    (hindent : ∀ c ∈ indent, isSpaceOrTab c = true) : IsOneLine (indent ++ text) := by
  refine ⟨fun hmem => ?_, fun hlast => ?_⟩
  · rcases List.mem_append.mp hmem with hmem | hmem
    · exact absurd (hindent _ hmem) (by decide)
    · exact h.1 hmem
  · cases text with
    | nil =>
      rw [List.append_nil] at hlast
      exact absurd (hindent _ (List.mem_of_getLast? hlast)) (by decide)
    | cons c text =>
      rw [List.getLast?_append_of_ne_nil _ (List.cons_ne_nil c text)] at hlast
      exact h.2 hlast

theorem isOneLine_of_mem_missing {text indent : Line} (htext : IsOneLine text)
    (hindent : ∀ c ∈ indent, isSpaceOrTab c = true) {lines : List Line} {line : Line}
    (hline : line ∈ (missing text lines).map (indent ++ ·)) : IsOneLine line := by
  obtain ⟨t, ht, rfl⟩ := List.mem_map.mp hline
  rw [missing] at ht
  split_ifs at ht
  · cases ht
  · obtain rfl := List.mem_singleton.mp ht
    exact htext.indented hindent

theorem pairwise_of_length_le_one {α : Type} {R : α → α → Prop} {l : List α} (h : l.length ≤ 1) :
    l.Pairwise R := by
  match l, h with
  | [], _ => exact List.Pairwise.nil
  | [_], _ => exact List.pairwise_singleton _ _

/-- A line at most at each of two places can be inserted. -/
theorem insertable_append {source : SourceText} {upper lower : Nat} {above below : List Line}
    (hlt : upper < lower) (hlower : lower < source.lines.length) (habove : above.length ≤ 1)
    (hbelow : below.length ≤ 1)
    (hlines : ∀ line ∈ above ++ below, IsOneLine line) :
    Insertable source (above.map (Insertion.mk upper) ++ below.map (Insertion.mk lower)) := by
  have hmem : ∀ i ∈ above.map (Insertion.mk upper) ++ below.map (Insertion.mk lower),
      i.index < source.lines.length ∧ i.line ∈ above ++ below := by
    intro i hi
    simp only [List.mem_append, List.mem_map] at hi ⊢
    rcases hi with ⟨line, hline, rfl⟩ | ⟨line, hline, rfl⟩
    · exact ⟨hlt.trans hlower, Or.inl hline⟩
    · exact ⟨hlower, Or.inr hline⟩
  refine ⟨?_, fun i hi => (hmem i hi).1, fun i hi => (hlines _ (hmem i hi).2).1,
    fun i hi => (hlines _ (hmem i hi).2).2⟩
  rw [List.pairwise_append]
  refine ⟨pairwise_of_length_le_one (by simpa using habove),
    pairwise_of_length_le_one (by simpa using hbelow), ?_⟩
  intro i hi j hj
  obtain ⟨_, -, rfl⟩ := List.mem_map.mp hi
  obtain ⟨_, -, rfl⟩ := List.mem_map.mp hj
  exact hlt

/-- The two places of a wiring are different lines of the file. -/
theorem places_ne {D A : Nat} (hdeclare : propertyAnchor (rows lines) = .found D)
    (hassign : initializerEnd (rows lines) = .found A) :
    D < lines.length ∧ A < lines.length ∧ D ≠ A := by
  obtain ⟨marker, opening, hbody⟩ := initializerEnd_eq_found.mp hassign
  obtain ⟨row, hrow, hsolid, hnone⟩ := hbody.closing_row
  rw [← length_rows]
  exact ⟨propertyAnchor_lt hdeclare, (List.getElem?_eq_some_iff.mp hrow).1,
    propertyAnchor_ne hdeclare hrow hsolid hnone⟩

/-- The lines of a wiring can be inserted. -/
theorem insertable_of_wiringInsertions {path : Path} {source : SourceText}
    {property statement : Line} {insertions : List Insertion}
    (hproperty : IsOneLine property) (hstatement : IsOneLine statement)
    (h : wiringInsertions path source.lines property statement = .ok insertions) :
    source.lines ≠ [] ∧ Insertable source insertions := by
  obtain ⟨D, A, hdeclare, hassign⟩ := exists_places_of_wiringInsertions h
  obtain ⟨hDlt, hAlt, hne⟩ := places_ne hdeclare hassign
  rw [wiringInsertions_eq path hdeclare hassign] at h
  obtain rfl := Except.ok.inj h
  have hdeclaration := fun line => @isOneLine_of_mem_missing property
    (indentation (source.lines[D]?.getD [])) hproperty
    (fun _ => isSpaceOrTab_of_mem_indentation) source.lines line
  have hassignment := fun line => @isOneLine_of_mem_missing statement
    (bodyIndentation source.lines A) hstatement
    (fun _ => isSpaceOrTab_of_mem_bodyIndentation) source.lines line
  have hone := fun (text indent : Line) => show ((missing text source.lines).map (indent ++ ·)).length ≤ 1 by
    rw [List.length_map]
    exact length_missing_le text source.lines
  refine ⟨List.ne_nil_of_length_pos (Nat.zero_lt_of_lt hDlt), ?_⟩
  dsimp only
  split_ifs with hlt
  · refine insertable_append hlt hDlt (hone _ _) (hone _ _) fun line hline => ?_
    exact (List.mem_append.mp hline).elim (hassignment line) (hdeclaration line)
  · refine insertable_append (by omega) hAlt (hone _ _) (hone _ _) fun line hline => ?_
    exact (List.mem_append.mp hline).elim (hdeclaration line) (hassignment line)

theorem framed_of_wireClass {path : Path} {property statement : String} {outcome : PatchOutcome}
    (hreturn : text.toList.getLast? ≠ some '\r')
    (hedit : (BootstrapEdit.wireClass property statement).WellFormed)
    (hplan : plan path text (.wireClass property statement) = .ok outcome) :
    Framed text (.wireClass property statement) outcome := by
  obtain ⟨insertions, hinsertions, rfl⟩ := plan_wireClass_eq_ok.mp hplan
  obtain ⟨hlines, hinsertable⟩ := insertable_of_wiringInsertions
    (isOneLine_of_notMem (hedit property (by simp)))
    (isOneLine_of_notMem (hedit statement (by simp))) hinsertions
  obtain ⟨declared, assigned, hperm, -, -, hdeclared, hassigned⟩ :=
    exists_changes_of_wiringInsertions hinsertions
  have hs := hinsertable.sound (SourceText.sound_parse hreturn hlines)
  rw [insertionChanges_eq]
  rw [insertLines_eq] at hs ⊢
  refine framed_of_sound _ hs hinsertable.pairwise_changesFrom (fun change hchange => ?_)
    ⟨⟨declared, assigned, hperm, hdeclared, hassigned⟩, hinsertable.withoutLines_insertLines⟩
  exact ⟨pos_of_mem_changesFrom hchange, hinsertable.getElem?_insertLines hchange⟩

/-! ### Assigning the plugin object -/

theorem notMem_of_isIdentifier {s : List Char} {c : Char} (hc : isIdentifierPart c = false)
    (h : isIdentifier s = true) : c ∉ s := by
  intro hmem
  rw [isIdentifierPart_of_mem h hmem] at hc
  cases hc

theorem framed_of_unchanged (hs : (SourceText.parse text).Sound)
    (hkeeps : ∀ {before after changes}, Replaces before after changes →
      edit.Keeps before after changes) :
    Framed text edit ⟨(SourceText.parse text).render, []⟩ :=
  framed_of_sound (SourceText.parse text).lines hs .nil (fun _ h => (List.not_mem_nil h).elim)
    (hkeeps ⟨rfl, Nat.zero_le _, fun _ h => (List.not_mem_nil h).elim, fun _ _ => rfl⟩)

theorem framed_of_replaced {index : Nat} {old line : Line}
    (hold : (SourceText.parse text).lines[index]? = some old)
    (hs : ((SourceText.parse text).replace index line).Sound)
    (hkeeps : ∀ {before after changes}, Replaces before after changes →
      edit.Keeps before after changes) :
    Framed text edit (replaceOutcome (SourceText.parse text) index line) := by
  refine framed_of_sound ((SourceText.parse text).lines.set index line) hs
    (List.pairwise_singleton _ _) (fun change hchange => ?_) (hkeeps ⟨?_, Nat.le_refl 1, ?_, ?_⟩)
  · obtain rfl := List.mem_singleton.mp hchange
    refine ⟨Nat.succ_pos index, ?_⟩
    rw [Nat.add_sub_cancel, String.toList_ofList,
      List.getElem?_set_self (List.getElem?_eq_some_iff.mp hold).1]
  · exact List.length_set
  · intro change hchange
    obtain rfl := List.mem_singleton.mp hchange
    rfl
  · intro i hi
    exact List.getElem?_set_ne fun heq => hi _ List.mem_cons_self (congrArg (· + 1) heq)

theorem sound_of_getElem? (hreturn : text.toList.getLast? ≠ some '\r') {index : Nat} {line : Line}
    (hline : (SourceText.parse text).lines[index]? = some line) : (SourceText.parse text).Sound :=
  SourceText.sound_parse hreturn (List.ne_nil_of_mem (List.mem_of_getElem? hline))

/-- A binding that is found stands on a line, with its masked copy. -/
theorem exists_line_of_findBinding? {name : String} {index : Nat}
    (h : findBinding? lines name = some index) :
    ∃ line code, lines[index]? = some line ∧ List.Forall₂ Masks code line ∧
      bindsNew name.toList code = true := by
  rw [findBinding?] at h
  split at h
  · next hfound =>
    obtain rfl := Option.some.inj h
    exact exists_line_of_locate hfound
  · cases h

/-- The line with an assignment put on it is a line as it was. -/
theorem sound_bindLine {source : SourceText} {name line : Line} {index : Nat} (hs : source.Sound)
    (hname : isIdentifier name = true) (hline : source.lines[index]? = some line)
    (hmem : 'n' ∈ line) : (source.replace index (bindLine name line)).Sound := by
  have hlast := getLast?_bindLine name hmem
  refine hs.replace hline (fun hnewline => ?_)
    (ne_nil_of_getLast?_eq hlast (List.ne_nil_of_mem hmem)) hlast
  rcases mem_bindLine hnewline with hnewline | hnewline
  · have hnone : '\n' ∉ name := notMem_of_isIdentifier (by decide) hname
    simp [hnone] at hnewline
  · exact hs.newline_notMem line (List.mem_of_getElem? hline) hnewline

/-- So is the line with the assignment taken off. -/
theorem sound_unbindLine {source : SourceText} {name line code : Line} {index : Nat}
    (hs : source.Sound) (hname : isIdentifier name = true)
    (hline : source.lines[index]? = some line) (hmasks : List.Forall₂ Masks code line)
    (hbinds : bindsNew name code = true) :
    (source.replace index (unbindLine name line)).Sound := by
  have hmem : 'n' ∈ line := mem_of_masks hmasks (mem_of_bindsNew hbinds) (by decide)
  have hlast := getLast?_unbindLine (notMem_of_isIdentifier (by decide) hname) hmasks hbinds
  exact hs.replace hline
    (fun hnewline => hs.newline_notMem line (List.mem_of_getElem? hline) (mem_unbindLine hnewline))
    (ne_nil_of_getLast?_eq hlast (List.ne_nil_of_mem hmem)) hlast

theorem framed_of_bindInstance {path : Path} {name : String} {outcome : PatchOutcome}
    (hreturn : text.toList.getLast? ≠ some '\r') (hname : isIdentifier name.toList = true)
    (hplan : plan path text (.bindInstance name) = .ok outcome) :
    Framed text (.bindInstance name) outcome := by
  rw [plan] at hplan
  split_ifs at hplan with hbound
  · obtain ⟨index, hindex⟩ := Option.isSome_iff_exists.mp hbound
    obtain ⟨line, -, hline, -, -⟩ := exists_line_of_findBinding? hindex
    obtain rfl := Except.ok.inj hplan
    exact framed_of_unchanged (sound_of_getElem? hreturn hline) id
  · obtain ⟨index, hfind, houtcome⟩ := Except.bind_eq_ok.mp hplan
    obtain rfl := Except.ok.inj houtcome
    obtain ⟨line, code, hline, hmasks, hnew⟩ := exists_line_of_locate (find_eq_ok.mp hfind)
    rw [hline, Option.getD_some]
    exact framed_of_replaced hline (sound_bindLine (sound_of_getElem? hreturn hline) hname hline
      (mem_of_masks hmasks (mem_of_instantiates hnew) (by decide))) id

theorem framed_of_unbindInstance {path : Path} {name : String} {outcome : PatchOutcome}
    (hreturn : text.toList.getLast? ≠ some '\r') (hname : isIdentifier name.toList = true)
    (hplan : plan path text (.unbindInstance name) = .ok outcome) :
    Framed text (.unbindInstance name) outcome := by
  rw [plan] at hplan
  split at hplan
  · cases hplan
  · next index hindex =>
    obtain rfl := Except.ok.inj hplan
    obtain ⟨line, code, hline, hmasks, hbinds⟩ := exists_line_of_findBinding? hindex
    rw [hline, Option.getD_some]
    exact framed_of_replaced hline
      (sound_unbindLine (sound_of_getElem? hreturn hline) hname hline hmasks hbinds) id

/-- An edit of a text that does not end in a carriage return keeps all lines but those it reports,
and reports each line that it changes as it reads in the text it leaves. -/
theorem plan_framed {path : Path} {outcome : PatchOutcome}
    (hreturn : text.toList.getLast? ≠ some '\r') (hedit : edit.WellFormed)
    (hplan : plan path text edit = .ok outcome) : Framed text edit outcome := by
  cases edit with
  | wireClass property statement => exact framed_of_wireClass hreturn hedit hplan
  | bindInstance name => exact framed_of_bindInstance hreturn hedit hplan
  | unbindInstance name => exact framed_of_unbindInstance hreturn hedit hplan

end Edits

/-- A plugin with the initialization method above the constructor, and no newline at its end. -/
def reversedPlugin : String :=
  "<?php\r\nclass Plugin \x7b\r\n    function instantiate() \x7b\r\n    \x7d\r\n\r\n    /** Starts. */\r\n    function __construct() \x7b\r\n    \x7d\r\n\x7d"

/-- A class is wired into it. -/
theorem plan_framed_reversedPlugin :
    let edit := BootstrapEdit.wireClass "public $Foo;" "$this->Foo = new \\P\\Foo($this->plugin);"
    reversedPlugin.toList.getLast? ≠ some '\r' ∧ edit.WellFormed ∧
      ∃ outcome, plan "plugin.php" reversedPlugin edit = .ok outcome ∧
        Framed reversedPlugin edit outcome := by
  intro edit
  have hreturn : reversedPlugin.toList.getLast? ≠ some '\r' := by decide +kernel
  have hedit : edit.WellFormed := by decide
  have hplanned : (plan "plugin.php" reversedPlugin edit).toOption.isSome = true := by
    decide +kernel
  cases hplan : plan "plugin.php" reversedPlugin edit with
  | error e => simp [hplan, Except.toOption] at hplanned
  | ok outcome => exact ⟨hreturn, hedit, outcome, rfl, plan_framed hreturn hedit hplan⟩

end PluginWorkshop.Php
