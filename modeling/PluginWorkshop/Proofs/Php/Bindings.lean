import PluginWorkshop.Proofs.Php.Framing
import PluginWorkshop.Proofs.Php.LiveAnchors
import PluginWorkshop.Proofs.Php.TopLevel

/-!
# Binding the plugin object

The line that creates the plugin object is looked for in the masked copy of the file, and the
assignment to a variable is put on it, and taken off it, as it is written.

Nothing of what is put on the line is read by the lexer (`maskLine_inert_append`), so that all other
rows stay as they are. The assignment is found again unless the line starts in a comment, in which
case it went into the comment; and taking it off leaves the line as it was unless the line had
further blanks in front of its code (`unbind_bind_iff`).
-/

namespace PluginWorkshop.Php

open Text

variable {name line line' code a s : Line} {state : LexState} {c : Char}

/-! ## Inert characters -/

/-- A character that the lexer takes for itself in code and in comments, and that is no brace. -/
def isInert (c : Char) : Bool := !(['/', '#', '\'', '"', '*', '\x7b', '\x7d'].contains c)

theorem isInert_iff : isInert c = true ↔ c ∉ ['/', '#', '\'', '"', '*', '\x7b', '\x7d'] := by
  rw [isInert, List.contains_eq_mem, Bool.not_eq_true', decide_eq_false_iff_not]

/-- Characters of a class that has none of those in it are inert. -/
theorem isInert_of_disjoint {p : Char → Bool}
    (hp : ['/', '#', '\'', '"', '*', '\x7b', '\x7d'].all (!p ·) = true) (h : p c = true) :
    isInert c = true := by
  rw [isInert_iff]
  intro hmem
  have hc := List.all_eq_true.mp hp c hmem
  rw [h] at hc
  cases hc

theorem isInert_of_isBlank (h : isBlank c = true) : isInert c = true :=
  isInert_of_disjoint (by decide) h

theorem isInert_of_isIdentifierPart (h : isIdentifierPart c = true) : isInert c = true :=
  isInert_of_disjoint (by decide) h

theorem isBlank_of_isIdentifierPart (h : isIdentifierPart c = true) : isBlank c = false := by
  rw [← Bool.not_eq_true]
  intro hblank
  simp only [isIdentifierPart, isLetterOrDigit, isLetter, isDigit, isBlank, Bool.or_eq_true,
    Bool.and_eq_true, decide_eq_true_eq, beq_iff_eq, Char.le_def, UInt32.le_iff_toNat_le,
    Char.ext_iff, ← UInt32.toNat_inj, Char.toNat] at h hblank
  have : 'a'.val.toNat = 97 ∧ 'z'.val.toNat = 122 ∧ 'A'.val.toNat = 65 ∧ 'Z'.val.toNat = 90 ∧
      '0'.val.toNat = 48 ∧ '9'.val.toNat = 57 ∧ '_'.val.toNat = 95 :=
    ⟨rfl, rfl, rfl, rfl, rfl, rfl, rfl⟩
  omega

theorem isInert_of_mem_identifier (h : isIdentifier s = true) (hc : c ∈ s) : isInert c = true :=
  isInert_of_isIdentifierPart (isIdentifierPart_of_mem h hc)

/-- What the lexer makes of inert characters. -/
def maskInert (state : LexState) (a : Line) : Line := if state = .code then a else blanked a

@[simp] theorem maskInert_code (a : Line) : maskInert .code a = a := rfl

@[simp] theorem maskInert_blockComment (a : Line) : maskInert .blockComment a = blanked a := rfl

/-- Inert characters are kept in code and blanked in comments, and leave the lexer in its state. -/
theorem maskLine_inert_append (hstate : state = .code ∨ state = .blockComment)
    (ha : ∀ c ∈ a, isInert c = true) (s : Line) :
    maskLine state (a ++ s) =
      (maskInert state a ++ (maskLine state s).1, (maskLine state s).2) := by
  induction a with
  | nil => rcases hstate with rfl | rfl <;> rfl
  | cons c a ih =>
    have hc := isInert_iff.mp (ha c List.mem_cons_self)
    simp only [List.mem_cons, List.not_mem_nil, or_false, not_or] at hc
    obtain ⟨hslash, hhash, hquote, hdouble, hstar, -⟩ := hc
    have ih := ih fun d hd => ha d (List.mem_cons_of_mem c hd)
    rcases hstate with rfl | rfl
    · have hstep : step .code c (a ++ s).head? = .keep .code := by
        simp [step, hslash, hhash, hquote, hdouble]
      rw [List.cons_append, maskLine_cons_of_keep hstep, ih]
      rfl
    · have hstep : step .blockComment c (a ++ s).head? = .blank .blockComment := by
        simp [step, hstar]
      rw [List.cons_append, maskLine_cons_of_blank hstep, ih]
      rfl

theorem braceBalance_maskInert_append (ha : ∀ c ∈ a, isInert c = true) (s : Line) :
    braceBalance (maskInert state a ++ s) = braceBalance s := by
  have hinert : ∀ d, isInert d = false → d ≠ ' ' → d ∉ maskInert state a := by
    intro d hd hspace hmem
    rw [maskInert] at hmem
    split_ifs at hmem
    · simp [ha d hmem] at hd
    · obtain ⟨_, -, heq⟩ := List.mem_map.mp hmem
      exact hspace heq.symm
  rw [braceBalance_append, braceBalance_of_notMem (hinert _ (by decide) (by decide))
    (hinert _ (by decide) (by decide)), Int.zero_add]

/-! ## The first character of the code -/

theorem bindsNew_eq_false_of_head? (h : (dropBlanks code).head? = some 'n') :
    bindsNew name code = false := by
  rw [← Bool.not_eq_true]
  intro hbinds
  rw [head?_of_bindsNew hbinds] at h
  cases h

/-- A line that starts in a string has the end of the string as its first code. -/
theorem state_of_head? (h : (dropBlanks (maskLine state line).1).head? = some c)
    (hc : c ∉ ['\'', '"']) : state = .code ∨ state = .blockComment := by
  have hquoted : ∀ {delimiter : Char} {inside : LexState},
      step inside = stepQuoted delimiter inside → isBlank delimiter = false → c ≠ delimiter →
        state ≠ inside := by
    rintro delimiter inside hinside hblank hne rfl
    obtain ⟨n, code, hcode, hhead⟩ := maskLine_quoted hinside line
    have hspaces : ∀ d ∈ List.replicate n ' ', isBlank d = true := by
      intro d hd
      rw [List.eq_of_mem_replicate hd]
      rfl
    rw [hcode, dropBlanks_append hspaces] at h
    cases code with
    | nil => cases h
    | cons d code =>
      rw [hhead d rfl, dropBlanks, List.dropWhile_cons_of_neg (by simp [hblank])] at h
      exact hne (Option.some.inj h).symm
  simp only [List.mem_cons, List.not_mem_nil, or_false, not_or] at hc
  cases hstate : state with
  | code => exact Or.inl rfl
  | blockComment => exact Or.inr rfl
  | singleQuoted => exact absurd hstate (hquoted rfl (by decide) hc.1)
  | doubleQuoted => exact absurd hstate (hquoted rfl (by decide) hc.2)

theorem state_of_instantiates (h : instantiates (maskLine state line).1 = true) :
    state = .code ∨ state = .blockComment :=
  state_of_head? (head?_of_instantiates h) (by decide)

theorem state_of_bindsNew (h : bindsNew name (maskLine state line).1 = true) :
    state = .code ∨ state = .blockComment :=
  state_of_head? (head?_of_bindsNew h) (by decide)

/-! ## A line with an assignment -/

/-- An assignment that is written on the line. -/
theorem boundValue?_append {indent x b : Line} (hindent : ∀ c ∈ indent, isSpaceOrTab c = true)
    (hx : ∀ c ∈ x, isBlank c = true) :
    boundValue? name (indent ++ '$' :: name ++ x ++ '=' :: b) = some (dropBlanks b) := by
  have hafter : afterIndentation (indent ++ '$' :: name ++ x ++ '=' :: b) =
      '$' :: name ++ (x ++ '=' :: b) := by
    rw [List.append_assoc, List.append_assoc, afterIndentation,
      List.dropWhile_append_of_pos hindent, List.cons_append,
      List.dropWhile_cons_of_neg (by decide)]
  have hblanks : dropBlanks (x ++ '=' :: b) = '=' :: b := by
    rw [dropBlanks_append hx]
    rfl
  rw [boundValue?, hafter, assignedTo?, afterPrefix?_eq_some.mpr rfl, Option.bind_some, assigned?,
    hblanks]
  rfl

theorem eq_space_of_mem_blanked (h : c ∈ blanked a) : c = ' ' := by
  obtain ⟨_, -, rfl⟩ := List.mem_map.mp h
  rfl

theorem isBlank_of_mem_blanked (h : c ∈ blanked a) : isBlank c = true := by
  rw [eq_space_of_mem_blanked h]
  rfl

/-- What is blanked makes no difference to what is assigned behind it. -/
theorem bindsNew_blanked_append (a s : Line) : bindsNew name (blanked a ++ s) = bindsNew name s := by
  rw [bindsNew, bindsNew, boundValue?, boundValue?, afterIndentation, afterIndentation,
    List.dropWhile_append_of_pos fun _ h => by rw [eq_space_of_mem_blanked h]; rfl]

/-- What is put in front of a line to assign its value. -/
def assignment (name line : Line) : Line := indentation line ++ '$' :: name ++ " = ".toList

theorem bindLine_eq (name line : Line) :
    bindLine name line = assignment name line ++ afterIndentation line := rfl

theorem boundValue?_assignment_append (name line rest : Line) :
    boundValue? name (assignment name line ++ rest) = some (dropBlanks rest) := by
  have hsplit : assignment name line ++ rest =
      indentation line ++ '$' :: name ++ [' '] ++ '=' :: ([' '] ++ rest) := by
    simp [assignment]
  have hspace : ∀ c ∈ [' '], isBlank c = true := List.all_eq_true.mp rfl
  rw [hsplit, boundValue?_append (fun _ => isSpaceOrTab_of_mem_indentation) hspace,
    dropBlanks_append hspace]

theorem isInert_of_mem_assignment (hname : isIdentifier name = true)
    (h : c ∈ assignment name line) : isInert c = true := by
  rw [assignment, List.mem_append, List.mem_append, List.mem_cons] at h
  rcases h with (h | rfl | h) | h
  · exact isInert_of_isBlank (isBlank_of_mem_indentation h)
  · rfl
  · exact isInert_of_mem_identifier hname h
  · simp only [String.reduceToList, List.mem_cons, List.not_mem_nil, or_false] at h
    rcases h with rfl | rfl | rfl <;> rfl

theorem isInert_of_mem_indentation (h : c ∈ indentation line) : isInert c = true :=
  isInert_of_isBlank (isBlank_of_mem_indentation h)

/-- The masked copy of a line, with that of its indentation apart. -/
theorem maskLine_eq_indentation (hstate : state = .code ∨ state = .blockComment) (line : Line) :
    maskLine state line = (maskInert state (indentation line) ++
      (maskLine state (afterIndentation line)).1, (maskLine state (afterIndentation line)).2) := by
  rw [← maskLine_inert_append hstate fun _ => isInert_of_mem_indentation,
    indentation_append_afterIndentation]

theorem maskLine_bindLine (hstate : state = .code ∨ state = .blockComment)
    (hname : isIdentifier name = true) (line : Line) :
    maskLine state (bindLine name line) = (maskInert state (assignment name line) ++
      (maskLine state (afterIndentation line)).1, (maskLine state (afterIndentation line)).2) := by
  rw [bindLine_eq, maskLine_inert_append hstate fun _ => isInert_of_mem_assignment hname]

/-- A line that creates an object in code assigns it there once the assignment is put on the line,
unless the line starts in a comment. -/
theorem bindsNew_maskLine_bindLine (hname : isIdentifier name = true)
    (hnew : instantiates (maskLine state line).1 = true) :
    bindsNew name (maskLine state (bindLine name line)).1 = true ↔ state ≠ .blockComment := by
  have hstate := state_of_instantiates hnew
  rw [maskLine_bindLine hstate hname]
  rw [maskLine_eq_indentation hstate] at hnew
  generalize (maskLine state (afterIndentation line)).1 = rest at hnew ⊢
  rcases hstate with rfl | rfl
  · refine iff_of_true ?_ (by decide)
    have hnew : ((operandOfNew? (dropBlanks rest)).bind className?).isSome = true := by
      rwa [instantiates, maskInert_code,
        dropBlanks_append fun _ => isBlank_of_mem_indentation] at hnew
    have hbound : boundValue? name (maskInert .code (assignment name line) ++ rest) =
        some (dropBlanks rest) :=
      boundValue?_assignment_append name line rest
    obtain ⟨_, hclass⟩ := Option.isSome_iff_exists.mp hnew
    obtain ⟨_, hoperand, -⟩ := Option.bind_eq_some_iff.mp hclass
    rw [bindsNew, hbound, Option.bind_some, hoperand]
    rfl
  · refine iff_of_false (fun hbinds => ?_) (by simp)
    -- In the comment the code starts as it did.
    have hblanks : ∀ a : Line, dropBlanks (blanked a ++ rest) = dropBlanks rest := fun a =>
      dropBlanks_append (fun _ => isBlank_of_mem_blanked) rest
    have hdollar := head?_of_bindsNew hbinds
    have hn := head?_of_instantiates hnew
    rw [maskInert_blockComment, hblanks] at hdollar hn
    rw [hn] at hdollar
    cases hdollar

theorem indentation_bindLine (name line : Line) :
    indentation (bindLine name line) = indentation line := by
  rw [bindLine_eq, assignment, List.append_assoc, List.append_assoc, indentation,
    List.takeWhile_append_of_pos fun _ => isSpaceOrTab_of_mem_indentation]
  simp [isSpaceOrTab]

/-- Taking the assignment off again leaves the line without the blanks in front of its code. -/
theorem unbindLine_bindLine (name line : Line) : unbindLine name (bindLine name line) =
    indentation line ++ dropBlanks (afterIndentation line) := by
  have hbound : boundValue? name (bindLine name line) = some (dropBlanks (afterIndentation line)) :=
    boundValue?_assignment_append name line _
  rw [unbindLine, hbound]
  dsimp only
  rw [indentation_bindLine]

/-! ## Both edits -/

section Edits

variable {path : Path} {text variableName : String} {outcome : PatchOutcome} {lines : List Line}
  {index : Nat}

theorem findBinding?_eq_some : findBinding? lines variableName = some index ↔
    Selects (bindsNew variableName.toList) (rows lines) index ∧
      ∀ i < index, ¬ Selects (bindsNew variableName.toList) (rows lines) i := by
  rw [← firstMatch_eq_found, findBinding?, Anchor.locate]
  cases firstMatch (bindsNew variableName.toList) true (rows lines) <;> simp

theorem findBinding?_eq_none : findBinding? lines variableName = none ↔
    ∀ i, ¬ Selects (bindsNew variableName.toList) (rows lines) i := by
  rw [← firstMatch_eq_notFound, findBinding?, Anchor.locate, firstMatch_eq]
  cases (rowsWithDepth (rows lines)).find? (isSelected (bindsNew variableName.toList)) <;> simp

/-- What assigning the plugin object comes to, unless it is assigned already. -/
theorem plan_bindInstance_eq_ok : plan path text (.bindInstance variableName) = .ok outcome ↔
    ((findBinding? (SourceText.parse text).lines variableName).isSome = true ∧
        outcome = ⟨(SourceText.parse text).render, []⟩) ∨
      findBinding? (SourceText.parse text).lines variableName = none ∧
        ∃ index line, bareInstantiation.locate (SourceText.parse text).lines = .found index ∧
          (SourceText.parse text).lines[index]? = some line ∧
          outcome =
            replaceOutcome (SourceText.parse text) index (bindLine variableName.toList line) := by
  rw [plan]
  cases hfind : findBinding? (SourceText.parse text).lines variableName with
  | some found =>
    simp only [Option.isSome_some, if_true, true_and, reduceCtorEq, false_and, or_false]
    exact ⟨fun h => (Except.ok.inj h).symm, fun h => congrArg Except.ok h.symm⟩
  | none =>
    simp only [Option.isSome_none, Bool.false_eq_true, if_false, false_and, true_and, false_or]
    rw [Except.bind_eq_ok]
    constructor
    · rintro ⟨index, hindex, houtcome⟩
      obtain ⟨line, -, hline, -, -⟩ := exists_line_of_locate (find_eq_ok.mp hindex)
      rw [hline, Option.getD_some] at houtcome
      exact ⟨index, line, find_eq_ok.mp hindex, hline, (Except.ok.inj houtcome).symm⟩
    · rintro ⟨index, line, hindex, hline, rfl⟩
      refine ⟨index, find_eq_ok.mpr hindex, ?_⟩
      rw [hline, Option.getD_some]
      rfl

theorem plan_unbindInstance_eq_ok : plan path text (.unbindInstance variableName) = .ok outcome ↔
    ∃ index line, findBinding? (SourceText.parse text).lines variableName = some index ∧
      (SourceText.parse text).lines[index]? = some line ∧
      outcome =
        replaceOutcome (SourceText.parse text) index (unbindLine variableName.toList line) := by
  rw [plan]
  cases hfind : findBinding? (SourceText.parse text).lines variableName with
  | none => simp [throw, throwThe, MonadExceptOf.throw]
  | some found =>
    obtain ⟨line, -, hline, -, -⟩ := exists_line_of_findBinding? hfind
    dsimp only
    constructor
    · intro h
      rw [hline, Option.getD_some] at h
      exact ⟨found, line, rfl, hline, (Except.ok.inj h).symm⟩
    · rintro ⟨index, line', hindex, hline', rfl⟩
      obtain rfl := Option.some.inj hindex
      rw [hline', Option.getD_some]
      rfl

/-- The assignment is found on the line on which it was put, unless that line starts in a
comment. -/
theorem findBinding?_set_bindLine (hname : isIdentifier variableName.toList = true)
    (hnone : findBinding? lines variableName = none)
    (hfound : bareInstantiation.locate lines = .found index) (hline : lines[index]? = some line) :
    findBinding? (lines.set index (bindLine variableName.toList line)) variableName =
      if stateBefore lines index = .blockComment then none else some index := by
  obtain ⟨hselected, -⟩ := firstMatch_eq_found.mp hfound
  obtain ⟨hdepth, hnew⟩ := (selects_rows_of_getElem? hline).mp hselected
  have hstate := state_of_instantiates hnew
  -- The search meets one line anew.
  have hselects : ∀ i, Selects (bindsNew variableName.toList)
      (rows (lines.set index (bindLine variableName.toList line))) i ↔
      i = index ∧ stateBefore lines index ≠ .blockComment := by
    intro i
    rw [selects_rows_set hline, bindsNew_maskLine_bindLine hname hnew]
    · split_ifs with hi
      · simp [hi, hdepth]
      · exact iff_of_false (findBinding?_eq_none.mp hnone i) fun h => hi h.1
    · rw [maskLine_bindLine hstate hname, maskLine_eq_indentation hstate line]
    · rw [maskLine_bindLine hstate hname, maskLine_eq_indentation hstate line,
        braceBalance_maskInert_append fun _ => isInert_of_mem_assignment hname,
        braceBalance_maskInert_append fun _ => isInert_of_mem_indentation]
  split_ifs with hcomment
  · exact findBinding?_eq_none.mpr fun i hi => ((hselects i).mp hi).2 hcomment
  · exact findBinding?_eq_some.mpr ⟨(hselects index).mpr ⟨rfl, hcomment⟩,
      fun i hlt hi => Nat.ne_of_lt hlt ((hselects i).mp hi).1⟩

/-- Where the assignment is found on the line on which it was put, it is taken off again. -/
theorem exists_plan_unbindInstance (path : Path) {source : SourceText}
    (hname : isIdentifier variableName.toList = true)
    (hs : (source.replace index (bindLine variableName.toList line)).Sound)
    (hline : source.lines[index]? = some line)
    (hbinding : findBinding? (source.lines.set index (bindLine variableName.toList line))
      variableName = some index) :
    ∃ undone, plan path (source.replace index (bindLine variableName.toList line)).render
        (.unbindInstance variableName) = .ok undone ∧
      (SourceText.parse undone.content).lines =
        source.lines.set index (indentation line ++ dropBlanks (afterIndentation line)) := by
  have hlt := (List.getElem?_eq_some_iff.mp hline).1
  have hbound : (source.replace index (bindLine variableName.toList line)).lines[index]? =
      some (bindLine variableName.toList line) :=
    List.getElem?_set_self hlt
  obtain ⟨_, code, hbound', hmasks, hbinds⟩ := exists_line_of_findBinding? hbinding
  obtain rfl := Option.some.inj (hbound.symm.trans hbound')
  refine ⟨replaceOutcome (source.replace index (bindLine variableName.toList line)) index
    (unbindLine variableName.toList (bindLine variableName.toList line)),
    plan_unbindInstance_eq_ok.mpr ?_, ?_⟩
  · rw [SourceText.parse_render hs]
    exact ⟨index, _, hbinding, hbound, rfl⟩
  · rw [replaceOutcome, SourceText.parse_render (sound_unbindLine hs hname hbound hmasks hbinds),
      unbindLine_bindLine]
    exact List.set_set ..

/-- Taking off again an assignment that was put on a line succeeds and brings back the lines of the
text exactly if the line does not start in a comment and has no further blanks behind its spaces and
tabs; and the assignment is found again exactly if the line does not start in a comment. -/
theorem unbind_bind_iff (hreturn : text.toList.getLast? ≠ some '\r')
    (hname : isIdentifier variableName.toList = true)
    (hplan : plan path text (.bindInstance variableName) = .ok outcome)
    (hchanges : outcome.changes.map LineChange.line = [index + 1]) :
    ∃ line, (SourceText.parse text).lines[index]? = some line ∧
      ((∃ undone, plan path outcome.content (.unbindInstance variableName) = .ok undone ∧
          (SourceText.parse undone.content).lines = (SourceText.parse text).lines) ↔
        stateBefore (SourceText.parse text).lines index ≠ .blockComment ∧
          ∀ c ∈ (afterIndentation line).head?, isBlank c = false) ∧
      findBinding? (SourceText.parse outcome.content).lines variableName =
        if stateBefore (SourceText.parse text).lines index = .blockComment then none
        else some index := by
  rcases plan_bindInstance_eq_ok.mp hplan with
    ⟨-, rfl⟩ | ⟨hnone, index', line, hfound, hline, rfl⟩
  · cases hchanges
  obtain rfl : index = index' := by simpa [replaceOutcome, eq_comm] using hchanges
  obtain ⟨hselected, -⟩ := firstMatch_eq_found.mp hfound
  obtain ⟨-, hnew⟩ := (selects_rows_of_getElem? hline).mp hselected
  have hmem : 'n' ∈ line :=
    mem_of_masks (forall₂_maskLine _ line) (mem_of_instantiates hnew) (by decide)
  have hs := sound_bindLine (sound_of_getElem? hreturn hline) hname hline hmem
  have hparse := SourceText.parse_render hs
  have hbinding := findBinding?_set_bindLine hname hnone hfound hline
  refine ⟨line, hline, ?_, by rw [replaceOutcome, hparse]; exact hbinding⟩
  by_cases hcomment : stateBefore (SourceText.parse text).lines index = .blockComment
  · -- The assignment went into the comment, and is not found there.
    refine iff_of_false ?_ fun h => h.1 hcomment
    rintro ⟨undone, hundo, -⟩
    obtain ⟨_, _, hfind, -⟩ := plan_unbindInstance_eq_ok.mp hundo
    rw [replaceOutcome, hparse, SourceText.replace, hbinding, if_pos hcomment] at hfind
    cases hfind
  · rw [if_neg hcomment] at hbinding
    obtain ⟨undone, hundo, hlines⟩ :=
      exists_plan_unbindInstance path hname hs hline hbinding
    rw [← dropBlanks_eq_self_iff]
    constructor
    · rintro ⟨undone', hundo', hback⟩
      obtain rfl := Except.ok.inj (hundo.symm.trans hundo')
      have hline' := hline
      rw [← hback, hlines, List.getElem?_set_self (List.getElem?_eq_some_iff.mp hline).1] at hline'
      have hsame := (Option.some.inj hline').trans (indentation_append_afterIndentation line).symm
      exact ⟨hcomment, List.append_cancel_left hsame⟩
    · rintro ⟨-, hblanks⟩
      refine ⟨undone, hundo, hlines.trans ?_⟩
      rw [hblanks, indentation_append_afterIndentation]
      obtain ⟨hlt, rfl⟩ := List.getElem?_eq_some_iff.mp hline
      exact List.set_getElem_self hlt

/-- A file that creates the plugin object. -/
def barePlugin : String := "<?php

new Plugin();
"

theorem plan_barePlugin : plan "p.php" barePlugin (.bindInstance "plugin") = .ok
    ⟨"<?php

$plugin = new Plugin();
", [⟨3, .replaced, "$plugin = new Plugin();"⟩]⟩ := by
  decide

/-- Its lines come back. -/
theorem unbind_bind_iff_barePlugin : ∃ outcome undone,
    plan "p.php" barePlugin (.bindInstance "plugin") = .ok outcome ∧
    plan "p.php" outcome.content (.unbindInstance "plugin") = .ok undone ∧
    (SourceText.parse undone.content).lines = (SourceText.parse barePlugin).lines ∧
    findBinding? (SourceText.parse outcome.content).lines "plugin" = some 2 := by
  have hstate : stateBefore (SourceText.parse barePlugin).lines 2 = .code := by decide
  have hget : (SourceText.parse barePlugin).lines[2]? = some "new Plugin();".toList := by
    decide
  obtain ⟨line, hline, hiff, hbinding⟩ :=
    unbind_bind_iff (by decide) (by decide) plan_barePlugin (show _ = [2 + 1] from rfl)
  rw [hget, Option.some.injEq] at hline
  subst hline
  have hfirst : (afterIndentation "new Plugin();".toList).head? = some 'n' := by decide
  rw [hstate, hfirst] at hiff
  obtain ⟨undone, hundo, hlines⟩ := hiff.mpr ⟨by decide, by rintro c ⟨⟩; rfl⟩
  exact ⟨_, undone, plan_barePlugin, hundo, hlines, by rw [hbinding, hstate]; rfl⟩

end Edits

end PluginWorkshop.Php
