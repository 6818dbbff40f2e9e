import PluginWorkshop.Proofs.ClassSpec.Accepting
import PluginWorkshop.Proofs.Php.TextLexing

/-!
# Statements that cannot be broken out of

The statement for a class passes on texts that may be anything: a slug, a name and a text domain. It is
put together from plain code and from texts in single quotes (`Sealed`), and that is how it is read,
whatever the texts are: each text is read back as it was given (`Sealed.literals?_source`), and the
masked copy keeps the code and blanks the texts (`Sealed.run_source_append`), also where they reach
over several lines. So the lexer is in code behind the statement, and the masked statement has no
brace, no marker and no comment (`ClassSpec.isSealed_instantiation`).
-/

namespace PluginWorkshop

open Text

namespace Php

open Quoted

/-! ## Reading the strings of a text -/

/-- The texts that PHP reads in the single-quoted strings of some code, in order; inside a string, the
first argument is what has been read of it. There are none if a string is not closed, or if something
stands in the code that would start a comment or a string of another kind. -/
def literalsFrom : Option (List Char) → List Char → Option (List (List Char))
  | none, [] => some []
  | some _, [] => none
  | none, '\'' :: rest => literalsFrom (some []) rest
  | none, c :: rest => if ['"', '/', '#'].contains c then none else literalsFrom none rest
  | some text, '\\' :: '\\' :: rest => literalsFrom (some (text ++ ['\\'])) rest
  | some text, '\\' :: '\'' :: rest => literalsFrom (some (text ++ ['\''])) rest
  | some text, '\'' :: rest => (literalsFrom none rest).map (text :: ·)
  | some text, c :: rest => literalsFrom (some (text ++ [c])) rest

/-- The texts in the strings of some code. -/
def literals? (code : List Char) : Option (List (List Char)) := literalsFrom none code

theorem literalsFrom_plain_append {a : List Char} (ha : ∀ c ∈ a, isPlain c = true)
    (s : List Char) : literalsFrom none (a ++ s) = literalsFrom none s := by
  induction a with
  | nil => rfl
  | cons c a ih =>
    have hc := ha c List.mem_cons_self
    have hquote : c ≠ '\'' := by
      rintro rfl
      exact absurd hc (by decide)
    have hother : ['"', '/', '#'].contains c = false := by
      rw [← Bool.not_eq_true, List.contains_iff_mem]
      intro hmem
      simp only [List.mem_cons, List.not_mem_nil, or_false] at hmem
      rcases hmem with rfl | rfl | rfl <;> exact absurd hc (by decide)
    rw [List.cons_append, literalsFrom.eq_def]
    split <;> simp_all

/-- Between its quotes a text is read as it was given. -/
theorem literalsFrom_encode (text read s : List Char) :
    literalsFrom (some read) (encode text ++ '\'' :: s) =
      (literalsFrom none s).map ((read ++ text) :: ·) := by
  induction text generalizing read with
  | nil => simp [encode, literalsFrom]
  | cons c text ih =>
    by_cases hslash : c = '\\'
    · subst hslash
      simp [encode, literalsFrom, ih]
    by_cases hquote : c = '\''
    · subst hquote
      simp [encode, literalsFrom, ih]
    rw [encode, if_neg (by simp [hslash, hquote]), List.cons_append, literalsFrom.eq_def]
    split <;> simp_all

/-! ## Statements of code and quoted texts -/

/-- A piece of a statement. -/
inductive StatementPart where
  | code (text : List Char)
  /-- A text in single quotes. -/
  | quoted (text : List Char)
  deriving DecidableEq, Repr

namespace StatementPart

/-- The part as it is written. -/
def source : StatementPart → List Char
  | code text => text
  | quoted text => '\'' :: encode text ++ ['\'']

/-- The part as it is masked: code stays, and between quotes there are blanks and line feeds. -/
def masked : StatementPart → List Char
  | code text => text
  | quoted text => '\'' :: (encode text).map blankOf ++ ['\'']

/-- The text of a part in quotes. -/
def text? : StatementPart → Option (List Char)
  | code _ => none
  | quoted text => some text

end StatementPart

open StatementPart

/-- Parts that are read as they are put together: plain code, without the space of a marker, and
quoted texts. -/
inductive Sealed : List StatementPart → Prop where
  | nil : Sealed []
  | code {text : List Char} {parts : List StatementPart} :
      isInertCode text = true → Sealed parts → Sealed (.code text :: parts)
  | name {name : List Char} {parts : List StatementPart} :
      (∀ c ∈ name, isNameChar c = true) → Sealed parts → Sealed (.code name :: parts)
  | quoted {text : List Char} {parts : List StatementPart} :
      Sealed parts → Sealed (.quoted text :: parts)
  /-- A space of its own has a quote behind it, which no marker has. -/
  | space {text : List Char} {parts : List StatementPart} :
      Sealed (.quoted text :: parts) → Sealed (.code [' '] :: .quoted text :: parts)

theorem hasMarkerSpace_map_blankOf (a s : List Char) :
    hasMarkerSpace (a.map blankOf ++ '\'' :: s) = hasMarkerSpace s := by
  induction a with
  | nil => rfl
  | cons c a ih =>
    rw [List.map_cons, List.cons_append, hasMarkerSpace, ih]
    cases a with
    | nil => simp [List.isPrefixOf]
    | cons d a =>
      have hscore : '_' ≠ blankOf d := by
        rw [blankOf]
        split_ifs <;> decide
      have hi : 'i' ≠ blankOf d := by
        rw [blankOf]
        split_ifs <;> decide
      simp [List.isPrefixOf, hscore, hi]

/-- A text between quotes is blanked up to its closing quote, whatever it is. -/
theorem run_encode_append (text tail : List Char) :
    Mode.singleQuoted.run (encode text ++ '\'' :: tail) =
      (encode text).map blankOf ++ '\'' :: Mode.code.run tail := by
  induction text with
  | nil => exact run_cons_of_keep (by simp [Mode.move, moveQuoted])
  | cons c text ih =>
    rw [encode]
    split_ifs with hc
    · have hmove : Mode.singleQuoted.move '\\' (some c) = .blankPair .singleQuoted := by
        simp [Mode.move, moveQuoted]
      rw [List.cons_append, List.cons_append, run_cons_of_blankPair hmove, ih]
      rfl
    · rw [not_or] at hc
      have hmove : Mode.singleQuoted.move c (encode text ++ '\'' :: tail).head? =
          .blank .singleQuoted := by
        simp [Mode.move, moveQuoted, hc]
      rw [List.cons_append, run_cons_of_blank hmove, ih]
      rfl

theorem move_of_isPlain {c : Char} (h : isPlain c = true) (next : Option Char) :
    Mode.code.move c next = .keep .code := by
  simp only [isPlain, List.contains_eq_mem, List.mem_cons, Bool.not_eq_true',
    decide_eq_false_iff_not, not_or] at h
  obtain ⟨hslash, hhash, hquote, hdouble, -⟩ := h
  simp [Mode.move, hslash, hhash, hquote, hdouble]

theorem run_plain_append {a : List Char} (ha : ∀ c ∈ a, isPlain c = true) (tail : List Char) :
    Mode.code.run (a ++ tail) = a ++ Mode.code.run tail := by
  induction a with
  | nil => rfl
  | cons c a ih =>
    rw [List.cons_append, run_cons_of_keep (move_of_isPlain (ha c List.mem_cons_self) _),
      ih fun d hd => ha d (List.mem_cons_of_mem c hd), List.cons_append]

namespace Sealed

variable {parts : List StatementPart}

/-- The code is plain. -/
theorem isPlain_of_mem (h : Sealed parts) {text : List Char} (htext : .code text ∈ parts) :
    ∀ c ∈ text, isPlain c = true := by
  induction h with
  | nil => cases htext
  | code hcode _ ih =>
    rcases List.mem_cons.mp htext with heq | htext
    · cases heq
      rw [isInertCode, Bool.and_eq_true, Bool.and_eq_true, List.all_eq_true] at hcode
      exact hcode.1.1
    · exact ih htext
  | name hname _ ih =>
    rcases List.mem_cons.mp htext with heq | htext
    · cases heq
      exact fun c hc => isPlain_of_isNameChar (hname c hc)
    · exact ih htext
  | quoted _ ih => exact ih (List.mem_of_ne_of_mem (by simp) htext)
  | space _ ih =>
    rcases List.mem_cons.mp htext with heq | htext
    · cases heq
      exact List.forall_mem_singleton.mpr (by decide)
    · exact ih htext

/-- The texts are read as they were given, and nothing else is read as a text. -/
theorem literals?_source (h : Sealed parts) :
    literals? (parts.flatMap source) = some (parts.filterMap text?) := by
  have hplain : ∀ text, .code text ∈ parts → ∀ c ∈ text, isPlain c = true :=
    fun _ => h.isPlain_of_mem
  clear h
  induction parts with
  | nil => rfl
  | cons part parts ih =>
    have ih := ih fun text htext => hplain text (List.mem_cons_of_mem _ htext)
    rw [literals?] at ih ⊢
    cases part with
    | code text =>
      rw [List.flatMap_cons, source, literalsFrom_plain_append (hplain text List.mem_cons_self), ih]
      rfl
    | quoted text =>
      rw [List.flatMap_cons, source, List.append_assoc, List.singleton_append, List.cons_append,
        literalsFrom, literalsFrom_encode, ih]
      rfl

/-- The masked copy keeps the code and blanks the texts, and what follows is read as code. -/
theorem run_source_append (h : Sealed parts) (tail : List Char) :
    Mode.code.run (parts.flatMap source ++ tail) = parts.flatMap masked ++ Mode.code.run tail := by
  have hplain : ∀ text, .code text ∈ parts → ∀ c ∈ text, isPlain c = true :=
    fun _ => h.isPlain_of_mem
  clear h
  induction parts with
  | nil => rfl
  | cons part parts ih =>
    have ih := ih fun text htext => hplain text (List.mem_cons_of_mem _ htext)
    cases part with
    | code text =>
      rw [List.flatMap_cons, List.flatMap_cons, source, masked, List.append_assoc,
        run_plain_append (hplain text List.mem_cons_self), ih, List.append_assoc]
    | quoted text =>
      have hopen : Mode.code.move '\'' (encode text ++ '\'' :: (parts.flatMap source ++ tail)).head? =
          .keep .singleQuoted := by
        simp [Mode.move]
      have hsource : (StatementPart.quoted text :: parts).flatMap source ++ tail =
          '\'' :: (encode text ++ '\'' :: (parts.flatMap source ++ tail)) := by
        simp [source]
      rw [hsource, run_cons_of_keep hopen, run_encode_append, ih]
      simp [masked]

/-- Masked, the parts hold plain characters, quotes and line feeds. -/
theorem of_mem_masked (h : Sealed parts) {c : Char} (hc : c ∈ parts.flatMap masked) :
    isPlain c = true ∨ c = '\'' ∨ c = '\n' := by
  obtain ⟨part, hpart, hc⟩ := List.mem_flatMap.mp hc
  cases part with
  | code text => exact Or.inl (h.isPlain_of_mem hpart c hc)
  | quoted text =>
    simp only [masked, List.cons_append, List.mem_cons, List.mem_append, List.mem_map,
      List.not_mem_nil, or_false] at hc
    rcases hc with rfl | ⟨d, -, rfl⟩ | rfl
    · exact Or.inr (Or.inl rfl)
    · rw [blankOf]
      split_ifs
      · exact Or.inr (Or.inr rfl)
      · exact Or.inl (by decide)
    · exact Or.inr (Or.inl rfl)

/-- Masked, they hold no marker. -/
theorem hasMarkerSpace_masked (h : Sealed parts) :
    hasMarkerSpace (parts.flatMap masked) = false := by
  have hquoted : ∀ text parts, hasMarkerSpace
      ((StatementPart.quoted text :: parts).flatMap masked) =
        hasMarkerSpace (parts.flatMap masked) := by
    intro text parts
    rw [List.flatMap_cons, masked, List.append_assoc, List.singleton_append, List.cons_append,
      hasMarkerSpace, hasMarkerSpace_map_blankOf]
    rfl
  induction h with
  | nil => rfl
  | code hcode _ ih =>
    simp only [isInertCode, Bool.and_eq_true, Bool.not_eq_true', Option.all_eq_true,
      bne_iff_ne] at hcode
    rw [List.flatMap_cons, masked, hasMarkerSpace_append hcode.1.2 hcode.2, ih]
  | name hname _ ih =>
    rw [List.flatMap_cons, masked, hasMarkerSpace_append_of_notMem (space_notMem hname), ih]
  | quoted _ ih => rw [hquoted, ih]
  | space _ ih =>
    rw [List.flatMap_cons, masked, List.singleton_append, hasMarkerSpace, ih]
    rfl

end Sealed

/-! ## The lines of a statement -/

/-- What comes on the line behind a text is read in the state that the lexer is left in. -/
theorem run_join_newline (state : LexState) {lines : List Line} (hne : lines ≠ [])
    (h : ∀ line ∈ lines, '\n' ∉ line) (tail : List Char) :
    state.mode.run (join ['\n'] lines ++ '\n' :: tail) =
      join ['\n'] (maskFrom state lines) ++ '\n' :: (stateAfter state lines).mode.run tail := by
  induction lines generalizing state with
  | nil => exact absurd rfl hne
  | cons line lines ih =>
    have hline := h line List.mem_cons_self
    cases lines with
    | nil =>
      change state.mode.run (line ++ '\n' :: tail) = _
      rw [run_append state (atLineEnd_newline _) hline, run_newline]
      rfl
    | cons next lines =>
      have ih := ih (maskLine state line).2 (List.cons_ne_nil _ _)
        fun l hl => h l (List.mem_cons_of_mem line hl)
      rw [join, List.append_assoc, List.append_assoc, List.singleton_append,
        run_append state (atLineEnd_newline _) hline, run_newline, ih]
      simp [maskFrom, join, stateAfter]

/-- A text that is read from code to code is masked line by line in the same way, and leaves the lexer
in code. -/
theorem mask_splitOn_of_run {text masked : List Char}
    (h : ∀ tail, Mode.code.run (text ++ tail) = masked ++ Mode.code.run tail) :
    join ['\n'] (mask (splitOn '\n' text)) = masked ∧
      stateAfter .code (splitOn '\n' text) = .code := by
  have hlines : ∀ line ∈ splitOn '\n' text, '\n' ∉ line := fun _ => notMem_of_mem_splitOn
  have hmask : Mode.code.run text = join ['\n'] (mask (splitOn '\n' text)) := by
    have hrun := run_join .code hlines
    rwa [join_splitOn] at hrun
  have hmasked : Mode.code.run text = masked := by simpa [Mode.run] using h []
  refine ⟨hmask.symm.trans hmasked, ?_⟩
  -- A brace on the next line is kept, as it is in code alone.
  have hne : splitOn '\n' text ≠ [] := splitWhere_ne_nil _ _
  have hbrace := run_join_newline .code hne hlines ['\x7b']
  rw [join_splitOn] at hbrace
  change Mode.code.run (text ++ ['\n', '\x7b']) = join ['\n'] (mask (splitOn '\n' text)) ++ _ at hbrace
  rw [h, ← hmask, hmasked, List.append_cancel_left_eq] at hbrace
  revert hbrace
  cases stateAfter .code (splitOn '\n' text) <;> decide

/-- A statement that is put together from code and quoted texts, with the `texts` in its quotes. -/
structure IsSealed (statement : List Char) (texts : List (List Char)) : Prop where
  /-- The texts are what is read in the quotes, and there is no comment and no other string. -/
  literals?_eq : literals? statement = some texts
  /-- The masked copy keeps what stands outside the quotes, and between them there are as many blanks
  and line feeds. -/
  mask_eq : ∃ parts, Sealed parts ∧ parts.filterMap StatementPart.text? = texts ∧
    statement = parts.flatMap StatementPart.source ∧
    join ['\n'] (mask (splitOn '\n' statement)) = parts.flatMap StatementPart.masked
  /-- Behind the statement the lexer is in code. -/
  state_eq : stateAfter .code (splitOn '\n' statement) = .code
  /-- No masked line opens or closes a block. -/
  brace : ∀ line ∈ mask (splitOn '\n' statement), '\x7b' ∉ line ∧ '\x7d' ∉ line
  /-- No masked line bears a marker. -/
  marker : ∀ line ∈ mask (splitOn '\n' statement),
    containsText constructorMarker line = false ∧ containsText initializerMarker line = false
  /-- No masked line bears a sign that starts a comment. -/
  comment : ∀ line ∈ mask (splitOn '\n' statement), '/' ∉ line ∧ '#' ∉ line

theorem part_join_of_mem {line : Line} {lines : List Line} (h : line ∈ lines) :
    line <:+: join ['\n'] lines := by
  obtain ⟨front, rest, rfl⟩ := List.append_of_mem h
  obtain ⟨a, b, hjoin, -⟩ := exists_append_of_join line rest front
  exact ⟨a, b, hjoin.symm⟩

/-- What stands nowhere in a text stands nowhere in a part of it. -/
theorem containsText_eq_false_of_part {pattern a s : List Char} (hpart : a <:+: s)
    (h : containsText pattern s = false) : containsText pattern a = false := by
  rw [Bool.eq_false_iff, Ne, containsText_iff] at h ⊢
  exact fun hpattern => h (hpattern.trans hpart)

theorem Sealed.isSealed {parts : List StatementPart} (h : Sealed parts) :
    IsSealed (parts.flatMap source) (parts.filterMap text?) := by
  obtain ⟨hmask, hstate⟩ := mask_splitOn_of_run h.run_source_append
  have hpart : ∀ line ∈ mask (splitOn '\n' (parts.flatMap source)),
      line <:+: parts.flatMap masked := fun line hline => hmask ▸ part_join_of_mem hline
  have hmem : ∀ line ∈ mask (splitOn '\n' (parts.flatMap source)), ∀ c, isPlain c = false →
      c ≠ '\'' → c ≠ '\n' → c ∉ line := by
    intro line hline c hplain hquote hnewline hc
    rcases h.of_mem_masked ((hpart line hline).subset hc) with hc | rfl | rfl
    · simp [hplain] at hc
    · exact hquote rfl
    · exact hnewline rfl
  refine ⟨h.literals?_source, ⟨parts, h, rfl, rfl, hmask⟩, hstate, fun line hline => ?_,
    fun line hline => ?_, fun line hline => ?_⟩
  · exact ⟨hmem line hline _ (by decide) (by decide) (by decide),
      hmem line hline _ (by decide) (by decide) (by decide)⟩
  · rw [constructorMarker_eq, initializerMarker_eq]
    exact ⟨containsText_eq_false_of_part (hpart line hline)
        (containsText_eq_false (fun _ => rfl) h.hasMarkerSpace_masked),
      containsText_eq_false_of_part (hpart line hline)
        (containsText_eq_false (fun _ => rfl) h.hasMarkerSpace_masked)⟩
  · exact ⟨hmem line hline _ (by decide) (by decide) (by decide),
      hmem line hline _ (by decide) (by decide) (by decide)⟩

end Php

/-! ## The statement for a class -/

open Php StatementPart

namespace PlacedClass

variable {placed : PlacedClass} {textDomain : String}

/-- The property is set to a new object. -/
def targetParts (placed : PlacedClass) (parts : List StatementPart) : List StatementPart :=
  .code "$this->".toList :: .code placed.spec.property.toList :: .code " = new \\".toList ::
    .code placed.qualifiedName.toList :: parts

/-- The slug, and the name in the text domain. -/
def registrationParts (placed : PlacedClass) (textDomain : String) (parts : List StatementPart) :
    List StatementPart :=
  .code "(".toList :: .quoted (placed.spec.slug.getD "").toList :: .code ", __(".toList ::
    .quoted (placed.spec.singularName.getD "").toList :: .code ",".toList :: .code [' '] ::
      .quoted textDomain.toList :: .code ")".toList :: parts

/-- The parts of the statement for a kind that is wired. -/
def statementParts (placed : PlacedClass) (textDomain : String) : List StatementPart :=
  match placed.spec.kind with
  | .model => placed.targetParts [.code "($this->plugin);".toList]
  | .postType =>
    placed.targetParts (placed.registrationParts textDomain
      [.code ", array(), $this->plugin);".toList])
  | .taxonomy =>
    placed.targetParts (placed.registrationParts textDomain
      [.code ", array(".toList, .quoted "post".toList, .code "), array(), $this->plugin);".toList])
  | .integrationStub => []

theorem source_quoted (text : String) : source (.quoted text.toList) = (Quoted.quote text).toList := by
  rw [Quoted.quote, String.toList_ofList]
  rfl

/-- The statement is its parts, one after another. -/
theorem instantiation_eq (hkind : placed.spec.kind ≠ .integrationStub) :
    placed.instantiation textDomain =
      some (String.ofList ((placed.statementParts textDomain).flatMap source)) := by
  have hpost : source (.quoted "post".toList) = "'post'".toList := by decide
  cases hk : placed.spec.kind with
  | model =>
    simp only [instantiation, hk, statementParts, targetParts, List.flatMap_cons, List.flatMap_nil,
      source, List.append_nil, Option.some.injEq]
    apply String.toList_injective
    simp
  | postType =>
    simp only [instantiation, hk, statementParts, targetParts, registrationParts, registration,
      List.flatMap_cons, List.flatMap_nil, source_quoted, Option.some.injEq]
    apply String.toList_injective
    simp [source]
  | taxonomy =>
    simp only [instantiation, hk, statementParts, targetParts, registrationParts, registration,
      List.flatMap_cons, List.flatMap_nil, hpost, source_quoted, Option.some.injEq]
    apply String.toList_injective
    simp [source]
  | integrationStub => exact absurd hk hkind

theorem sealed_targetParts (h : placed.Named) {parts : List StatementPart} (hparts : Sealed parts) :
    Sealed (placed.targetParts parts) :=
  .code (by decide) <| .name h.property <| .code (by decide) <| .name h.qualifiedName hparts

theorem sealed_registrationParts {parts : List StatementPart} (hparts : Sealed parts) :
    Sealed (placed.registrationParts textDomain parts) :=
  .code (by decide) <| .quoted <| .code (by decide) <| .quoted <| .code (by decide) <| .space <|
    .quoted <| .code (by decide) hparts

/-- The statement is sealed, whatever its texts are. -/
theorem sealed_statementParts (h : placed.Named) (textDomain : String) :
    Sealed (placed.statementParts textDomain) := by
  rw [statementParts]
  cases placed.spec.kind with
  | model => exact sealed_targetParts h (.code (by decide) .nil)
  | postType =>
    exact sealed_targetParts h (sealed_registrationParts (.code (by decide) .nil))
  | taxonomy =>
    exact sealed_targetParts h (sealed_registrationParts
      (.code (by decide) <| .quoted <| .code (by decide) .nil))
  | integrationStub => exact .nil

end PlacedClass

namespace ClassSpec

variable {request : ClassRequest} {spec : ClassSpec} {mapping : NamespaceMapping}

/-- What the statement for a class passes on in quotes, in order: the slug, the name and the text
domain, and for a taxonomy the post type that it is for. -/
def passedTexts (request : ClassRequest) (className textDomain : String) : List (List Char) :=
  let slug := request.slug.getD (lower className)
  let name := request.singularName.getD (capitalize className)
  match request.kind with
  | .postType => [slug.toList, name.toList, textDomain.toList]
  | .taxonomy => [slug.toList, name.toList, textDomain.toList, "post".toList]
  | .model | .integrationStub => []

theorem filterMap_text?_statementParts (h : ofRequest request = .ok spec) (textDomain : String) :
    ((spec.place mapping).statementParts textDomain).filterMap text? =
      passedTexts request spec.className textDomain := by
  obtain ⟨-, -, -, hspec⟩ := ofRequest_eq_ok_iff.mp h
  obtain ⟨hkind, hslug, htitle⟩ : request.kind = spec.kind ∧
      requestedSlug request spec.className = spec.slug ∧
        requestedTitle request spec.className = spec.singularName :=
    ⟨congrArg ClassSpec.kind hspec, congrArg ClassSpec.slug hspec,
      congrArg ClassSpec.singularName hspec⟩
  rw [requestedSlug, hkind] at hslug
  rw [requestedTitle, hkind] at htitle
  have hplaced : (spec.place mapping).spec = spec := rfl
  rw [PlacedClass.statementParts, passedTexts, hkind, hplaced]
  cases hk : spec.kind with
  | model => rfl
  | postType =>
    rw [hk] at hslug htitle
    simp only [PlacedClass.targetParts, PlacedClass.registrationParts, place, ← hslug, ← htitle]
    rfl
  | taxonomy =>
    rw [hk] at hslug htitle
    simp only [PlacedClass.targetParts, PlacedClass.registrationParts, place, ← hslug, ← htitle]
    rfl
  | integrationStub => rfl

/-- The statement for a class that is accepted and wired cannot be broken out of, whatever the slug,
the name and the text domain are, if the root namespace consists of names and separators: what is read
in its quotes are these texts, they are blanked in the masked copy, and behind it the lexer is in
code. -/
theorem isSealed_instantiation (h : ofRequest request = .ok spec)
    (hroot : ∀ c ∈ mapping.rootNamespace.toList, isNameChar c = true)
    (hkind : spec.kind ≠ .integrationStub) (textDomain : String) :
    ∃ statement, (spec.place mapping).instantiation textDomain = some statement ∧
      IsSealed statement.toList (passedTexts request spec.className textDomain) := by
  have hnamed : (spec.place mapping).Named := PlacedClass.named_of_ofRequest h hroot
  refine ⟨_, PlacedClass.instantiation_eq hkind, ?_⟩
  rw [String.toList_ofList, ← filterMap_text?_statementParts h textDomain]
  exact (PlacedClass.sealed_statementParts hnamed textDomain).isSealed

/-- Texts with quotes, backslashes at both ends, a brace, a comment and a marker on lines of its own. -/
theorem isSealed_instantiation_hostile :
    let request : ClassRequest :=
      ⟨.taxonomy, "Admin/Genre", some "$$genre", some "\\'\\", some "a');\n\x7d // \\"⟩
    let mapping : NamespaceMapping := ⟨"Acme\\", "Acme\\Demo", "/p/src"⟩
    let textDomain := "'\nfunction __construct() \x7b\n/* \\"
    ∃ spec, ClassSpec.ofRequest request = .ok spec ∧
      (∀ c ∈ mapping.rootNamespace.toList, isNameChar c = true) ∧ spec.kind ≠ .integrationStub ∧
      ∃ statement, (spec.place mapping).instantiation textDomain = some statement ∧
        IsSealed statement.toList ["\\'\\".toList, "a');\n\x7d // \\".toList, textDomain.toList,
          "post".toList] := by
  intro request mapping textDomain
  have hspec : ofRequest request = .ok ⟨.taxonomy, ["Admin"], "Genre", "genre", some "\\'\\",
      some "a');\n\x7d // \\"⟩ := by
    decide
  have hroot : ∀ c ∈ mapping.rootNamespace.toList, isNameChar c = true :=
    List.all_eq_true.mp (by decide)
  exact ⟨_, hspec, hroot, by decide, isSealed_instantiation hspec hroot (by decide) textDomain⟩

end ClassSpec

end PluginWorkshop
