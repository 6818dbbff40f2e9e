import PluginWorkshop.Proofs.Toml.Strings

/-!
# Documents written and read

The sections of a document are read back as the headers and entries that they stand for
(`parse?_render`). A value is read whatever follows it (`value?_itemChars`), the names have to be
ones that need no quotes (`isBareKey`), and a line is read up to its end, after which the rest of
the document is read on its own (`ReadsAs.line`).
-/

namespace PluginWorkshop.Toml

open Text

variable {s rest : List Char} {c : Char} {bound depth : Nat}

/-! ## White space -/

/-- Neither white space nor the end of a line nor the start of a comment. -/
def isSolid (c : Char) : Bool := !isSpace c && c != '#' && c != '\n' && c != '\r'

theorem isSpace_of_isSolid (h : isSolid c = true) : isSpace c = false := by
  simp only [isSolid, Bool.and_eq_true, Bool.not_eq_true'] at h
  exact h.1.1.1

theorem skipSpace_append (blanks : List Char) (hblanks : ∀ b ∈ blanks, isSpace b = true)
    (hc : isSpace c = false) (s : List Char) : skipSpace (blanks ++ c :: s) = c :: s := by
  rw [skipSpace, List.dropWhile_append_of_pos hblanks, List.dropWhile_cons_of_neg (by simp [hc])]

/-- What is solid ends the white space before it. -/
theorem skipComment?_append (blanks : List Char) (hblanks : ∀ b ∈ blanks, isSpace b = true)
    (hspace : isSpace c = false) (hcomment : c ≠ '#') (s : List Char) :
    skipComment? (blanks ++ c :: s) = some (c :: s) := by
  rw [skipComment?, skipSpace_append blanks hblanks hspace]
  split
  · simp_all
  · rfl

theorem skipLines_append (blanks : List Char) (hblanks : ∀ b ∈ blanks, isSpace b = true)
    (hc : isSolid c = true) (s : List Char) : skipLines (blanks ++ c :: s) = some (c :: s) := by
  simp only [isSolid, Bool.and_eq_true, Bool.not_eq_true', bne_iff_ne] at hc
  obtain ⟨⟨⟨hspace, hcomment⟩, hnewline⟩, hreturn⟩ := hc
  rw [skipLines, skipLinesUpTo, skipComment?_append blanks hblanks hspace hcomment]
  simp [afterNewline?_cons_of_ne hnewline hreturn]

theorem skipLines_cons (hc : isSolid c = true) (s : List Char) :
    skipLines (c :: s) = some (c :: s) :=
  skipLines_append [] (by simp) hc s

theorem skipLines_newline (s : List Char) : skipLines ('\n' :: s) = skipLines s := by
  rw [skipLines, skipLinesUpTo,
    show skipComment? ('\n' :: s) = some ('\n' :: s) from
      skipComment?_append [] (by simp) rfl (by decide) s]
  rfl

/-! ## Values -/

/-- The value that an item stands for. -/
def Item.value : Item → Value
  | .text content => .string content
  | .texts contents => .array (contents.map .string)

theorem exists_stringChars (text : List Char) :
    ∃ q tail, stringChars text = q :: tail ∧ (q = '"' ∨ q = '\'') := by
  unfold stringChars between
  dsimp only
  split_ifs
  all_goals exact ⟨_, _, rfl, by decide⟩

theorem valueWith_stringChars {nested : Option (Reader Value)} (text : String)
    (hdouble : rest.head? ≠ some '"') (hsingle : rest.head? ≠ some '\'') :
    valueWith nested (stringChars text.toList ++ rest) = some (.string text, rest) := by
  have hread := string?_stringChars text.toList hdouble hsingle
  rw [String.ofList_toList] at hread
  obtain ⟨q, tail, hchars, rfl | rfl⟩ := exists_stringChars text.toList
  all_goals
    rw [hchars, List.cons_append] at hread ⊢
    simp only [valueWith, hread, Option.map_some]

theorem value?_stringChars (depth : Nat) (text : String) (rest : List Char) (hdouble : rest.head? ≠ some '"')
    (hsingle : rest.head? ≠ some '\'') :
    value? depth (stringChars text.toList ++ rest) = some (.string text, rest) := by
  cases depth <;> exact valueWith_stringChars text hdouble hsingle

section Items

attribute [local simp] itemsUpTo

variable {α : Type} {item : Reader α} {first : α} {close : Char} {after : List Char}

theorem itemsUpTo_close (hskip : skipLines s = some (close :: rest)) :
    itemsUpTo close item (bound + 1) s = some ([], rest) := by
  simp [hskip]

/-- An item with the closing bracket behind it. -/
theorem itemsUpTo_last (hskip : skipLines s = some (c :: after)) (hclose : c ≠ close)
    (hitem : item (c :: after) = some (first, close :: rest)) (hsolid : isSolid close = true)
    (hcomma : close ≠ ',') : itemsUpTo close item (bound + 1) s = some ([first], rest) := by
  simp only [itemsUpTo, hskip, hclose, hitem, skipLines_cons hsolid, if_false, bind,
    Option.bind_some]
  split <;> simp_all

/-- An item with a comma behind it. -/
theorem itemsUpTo_comma (hskip : skipLines s = some (c :: after)) (hclose : c ≠ close)
    (hitem : item (c :: after) = some (first, ',' :: rest)) :
    itemsUpTo close item (bound + 1) s =
      (itemsUpTo close item bound rest).map fun (others, rest) => (first :: others, rest) := by
  have hcomma : skipLines (',' :: rest) = some (',' :: rest) := skipLines_cons (by decide) rest
  simp only [itemsUpTo, hskip, hclose, hitem, hcomma, if_false, bind, Option.bind_some]
  cases itemsUpTo close item bound rest <;> rfl

end Items

/-- A text on a line of its own in an array. -/
def itemLine (text : String) : List Char :=
  "    ".toList ++ stringChars text.toList ++ ",\n".toList

/-- Items on lines of their own, each with a comma. -/
theorem itemsUpTo_lines (texts : List String) (rest : List Char) (hbound : texts.length < bound) :
    itemsUpTo ']' (value? depth) bound ('\n' :: (texts.flatMap itemLine ++ ']' :: rest)) =
      some (texts.map .string, rest) := by
  induction texts generalizing bound with
  | nil =>
    obtain ⟨bound, rfl⟩ : ∃ b, bound = b + 1 := ⟨bound - 1, by simp at hbound; omega⟩
    exact itemsUpTo_close ((skipLines_newline _).trans (skipLines_cons (by decide) rest))
  | cons text texts ih =>
    rw [List.length_cons] at hbound
    obtain ⟨bound, rfl⟩ : ∃ b, bound = b + 1 := ⟨bound - 1, by omega⟩
    obtain ⟨q, tail, hchars, hq⟩ := exists_stringChars text.toList
    have hitem := value?_stringChars depth text
      (',' :: '\n' :: (texts.flatMap itemLine ++ ']' :: rest)) (by simp) (by simp)
    rw [hchars, List.cons_append] at hitem
    have hsolid : isSolid q = true := by obtain rfl | rfl := hq <;> decide
    have hclose : q ≠ ']' := by obtain rfl | rfl := hq <;> decide
    have hline : (text :: texts).flatMap itemLine ++ ']' :: rest = "    ".toList ++
        q :: (tail ++ ',' :: '\n' :: (texts.flatMap itemLine ++ ']' :: rest)) := by
      simp [itemLine, hchars]
    rw [hline, itemsUpTo_comma ((skipLines_newline _).trans
      (skipLines_append _ (List.all_eq_true.mp (by decide)) hsolid _)) hclose hitem, ih (by omega)]
    rfl

theorem length_le_length_flatMap_itemLine (texts : List String) :
    texts.length ≤ (texts.flatMap itemLine).length := by
  induction texts with
  | nil => exact Nat.le_refl 0
  | cons text texts ih =>
    rw [List.flatMap_cons, List.length_append, List.length_cons, itemLine, List.length_append]
    have : ",\n".toList.length = 2 := rfl
    omega

theorem valueWith_array {item : Reader Value} {items : List Value}
    (h : itemsUpTo ']' item (s.length + 1) s = some (items, rest)) :
    valueWith (some item) ('[' :: s) = some (.array items, rest) := by
  simp [valueWith, h]

/-- A value is read as the one that was written, with nested values where arrays may stand. -/
theorem value?_itemChars (item : Item) (hdouble : rest.head? ≠ some '"')
    (hsingle : rest.head? ≠ some '\'') :
    value? (depth + 1) (itemChars item ++ rest) = some (item.value, rest) := by
  match item with
  | .text content => exact value?_stringChars _ content rest hdouble hsingle
  | .texts [] => exact valueWith_array (itemsUpTo_close (skipLines_cons (by decide) rest))
  | .texts [text] =>
    obtain ⟨q, tail, hchars, hq⟩ := exists_stringChars text.toList
    have hitem := value?_stringChars depth text (']' :: rest) (by simp) (by simp)
    rw [hchars, List.cons_append] at hitem
    have hsolid : isSolid q = true := by obtain rfl | rfl := hq <;> decide
    have hclose : q ≠ ']' := by obtain rfl | rfl := hq <;> decide
    have hform : itemChars (.texts [text]) ++ rest = '[' :: q :: (tail ++ ']' :: rest) := by
      simp [itemChars, hchars]
    rw [hform]
    exact valueWith_array
      (itemsUpTo_last (skipLines_cons hsolid _) hclose hitem (by decide) (by decide))
  | .texts (text :: next :: texts) =>
    have hform : itemChars (.texts (text :: next :: texts)) ++ rest =
        '[' :: '\n' :: ((text :: next :: texts).flatMap itemLine ++ ']' :: rest) := by
      show "[\n".toList ++ (text :: next :: texts).flatMap itemLine ++ [']'] ++ rest = _
      rw [List.append_assoc, List.append_assoc]
      rfl
    have hlength := length_le_length_flatMap_itemLine (text :: next :: texts)
    rw [hform]
    refine valueWith_array (itemsUpTo_lines _ rest ?_)
    rw [List.length_cons (a := '\n'), List.length_append]
    omega

theorem exists_itemChars (item : Item) :
    ∃ q tail, itemChars item = q :: tail ∧ isSpace q = false := by
  match item with
  | .text content =>
    obtain ⟨q, tail, hchars, rfl | rfl⟩ := exists_stringChars content.toList
    all_goals exact ⟨_, tail, hchars, rfl⟩
  | .texts [] | .texts [_] | .texts (_ :: _ :: _) => exact ⟨'[', _, rfl, rfl⟩

/-! ## Keys -/

/-- A key that is written without quotes. -/
def isBareKey (key : String) : Bool := !key.toList.isEmpty && key.toList.all isBareKeyChar

theorem isBareKeyChar_of_mem {key : String} (h : isBareKey key = true) :
    ∀ c ∈ key.toList, isBareKeyChar c = true := by
  rw [isBareKey, Bool.and_eq_true] at h
  exact List.all_eq_true.mp h.2

theorem exists_cons_of_isBareKey {key : String} (h : isBareKey key = true) :
    ∃ c tail, key.toList = c :: tail ∧ isBareKeyChar c = true := by
  cases hkey : key.toList with
  | nil => simp [isBareKey, hkey] at h
  | cons c tail => exact ⟨c, tail, rfl, isBareKeyChar_of_mem h c (by simp [hkey])⟩

theorem ne_of_isBareKeyChar {d : Char} (hc : isBareKeyChar c = true)
    (hd : isBareKeyChar d = false) : c ≠ d := by
  rintro rfl
  simp [hc] at hd

theorem isSolid_of_isBareKeyChar (hc : isBareKeyChar c = true) : isSolid c = true := by
  have hne (d : Char) (hd : isBareKeyChar d = false) := ne_of_isBareKeyChar hc hd
  simp [isSolid, isSpace, hne ' ' (by decide), hne '\t' (by decide), hne '#' (by decide),
    hne '\n' (by decide), hne '\r' (by decide)]

theorem simpleKey?_bare {key : String} (hkey : isBareKey key = true)
    (hrest : ∀ d ∈ rest.head?, isBareKeyChar d = false) :
    simpleKey? (key.toList ++ rest) = some (key, rest) := by
  obtain ⟨c, tail, hchars, hc⟩ := exists_cons_of_isBareKey hkey
  have htake : (key.toList ++ rest).takeWhile isBareKeyChar = key.toList := by
    rw [List.takeWhile_append_of_pos (isBareKeyChar_of_mem hkey)]
    cases rest with
    | nil => simp
    | cons d rest => simp [hrest d rfl]
  have hdrop : (key.toList ++ rest).dropWhile isBareKeyChar = rest := by
    rw [List.dropWhile_append_of_pos (isBareKeyChar_of_mem hkey)]
    cases rest with
    | nil => rfl
    | cons d rest => simp [hrest d rfl]
  have hofList : String.ofList (c :: tail) = key := by rw [← hchars, String.ofList_toList]
  rw [hchars, List.cons_append] at htake hdrop ⊢
  rw [simpleKey?, htake, hdrop]
  · dsimp only
    rw [hofList]
  · exact fun _ h => ne_of_isBareKeyChar (d := '"') hc (by decide) (List.cons.inj h).1
  · exact fun _ h => ne_of_isBareKeyChar (d := '\'') hc (by decide) (List.cons.inj h).1

theorem key?_bare {key : String} (hkey : isBareKey key = true) (rest : List Char)
    (hrest : ∀ d ∈ rest.head?, isBareKeyChar d = false) (hdot : (skipSpace rest).head? ≠ some '.') :
    key? (key.toList ++ rest) = some ([key], skipSpace rest) := by
  obtain ⟨c, tail, hchars, hc⟩ := exists_cons_of_isBareKey hkey
  have hskip : skipSpace (key.toList ++ rest) = key.toList ++ rest := by
    rw [hchars, List.cons_append]
    exact skipSpace_append [] (by simp)
      (isSpace_of_isSolid (isSolid_of_isBareKeyChar hc)) _
  rw [key?, keyUpTo, hskip, simpleKey?_bare hkey hrest]
  simp only [bind, Option.bind_some]
  split
  · simp_all
  · rfl

/-! ## Lines -/

theorem statement?_header {name : String} (hname : isBareKey name = true) (rest : List Char) :
    statement? ('[' :: (name.toList ++ ']' :: rest)) = some (.header [name], rest) := by
  have hkey := key?_bare hname (']' :: rest) (by simp; decide) (by
    simp [skipSpace, isSpace])
  obtain ⟨c, tail, hchars, hc⟩ := exists_cons_of_isBareKey hname
  have hskip : skipSpace (']' :: rest) = ']' :: rest := by simp [skipSpace, isSpace]
  rw [hskip, hchars, List.cons_append] at hkey
  rw [hchars, List.cons_append, statement?]
  · simp [hkey]
  · exact fun _ h => ne_of_isBareKeyChar (d := '[') hc (by decide) (List.cons.inj h).1

/-- An entry is read up to the end of its line. -/
theorem statement?_entry {key : String} (hkey : isBareKey key = true) (item : Item) (rest : List Char) :
    statement? (key.toList ++ " = ".toList ++ itemChars item ++ '\n' :: rest) =
      some (.entry [key] item.value, '\n' :: rest) := by
  obtain ⟨q, tail, hitem, hspace⟩ := exists_itemChars item
  have hvalue : value? maxDepth (itemChars item ++ '\n' :: rest) =
      some (item.value, '\n' :: rest) := value?_itemChars item (by simp) (by simp)
  have hread := key?_bare hkey (' ' :: '=' :: ' ' :: (itemChars item ++ '\n' :: rest))
    (by simp; decide) (by simp [skipSpace, isSpace])
  have hequals : skipSpace (' ' :: '=' :: ' ' :: (itemChars item ++ '\n' :: rest)) =
      '=' :: ' ' :: (itemChars item ++ '\n' :: rest) := by simp [skipSpace, isSpace]
  have hblank : skipSpace (' ' :: (itemChars item ++ '\n' :: rest)) =
      itemChars item ++ '\n' :: rest := by
    rw [hitem, List.cons_append]
    exact skipSpace_append [' '] (by simp; rfl) hspace _
  have hkeyed : keyedValue? (value? maxDepth)
      (key.toList ++ " = ".toList ++ itemChars item ++ '\n' :: rest) =
        some (([key], item.value), '\n' :: rest) := by
    rw [show key.toList ++ " = ".toList ++ itemChars item ++ '\n' :: rest =
      key.toList ++ ' ' :: '=' :: ' ' :: (itemChars item ++ '\n' :: rest) by simp, keyedValue?,
      hread, hequals]
    simp [hblank, hvalue]
  obtain ⟨c, chars, hchars, hc⟩ := exists_cons_of_isBareKey hkey
  rw [hchars] at hkeyed ⊢
  simp only [List.cons_append] at hkeyed ⊢
  rw [statement?, hkeyed]
  · rfl
  · exact fun _ h => ne_of_isBareKeyChar (d := '[') hc (by decide) (List.cons.inj h).1
  · exact fun _ h => ne_of_isBareKeyChar (d := '[') hc (by decide) (List.cons.inj h).1

/-- The statements that a text is read as when it is not cut short. -/
def ReadsAs (s : List Char) (statements : List Statement) : Prop :=
  ∀ bound, s.length < bound → statementsUpTo bound s = some statements

theorem ReadsAs.nil : ReadsAs [] [] := by
  intro bound hbound
  obtain ⟨bound, rfl⟩ : ∃ b, bound = b + 1 := ⟨bound - 1, by simp at hbound; omega⟩
  rfl

theorem ReadsAs.newline {statements : List Statement} (h : ReadsAs s statements) :
    ReadsAs ('\n' :: s) statements := by
  intro bound hbound
  rw [List.length_cons] at hbound
  have hread := h bound (by omega)
  obtain ⟨bound, rfl⟩ : ∃ b, bound = b + 1 := ⟨bound - 1, by omega⟩
  rw [statementsUpTo] at hread ⊢
  rwa [skipLines_newline]

/-- A statement with the end of its line behind it, and what the rest is read as. -/
theorem ReadsAs.line {statement : Statement} {statements : List Statement} (c : Char) (chars : List Char)
    (h : ReadsAs rest statements) (hc : isSolid c = true)
    (hread : statement? (c :: chars ++ '\n' :: rest) = some (statement, '\n' :: rest)) :
    ReadsAs (c :: chars ++ '\n' :: rest) (statement :: statements) := by
  intro bound hbound
  simp only [List.length_append, List.length_cons] at hbound
  have hothers := h (bound - 1) (by omega)
  obtain ⟨bound, rfl⟩ : ∃ b, bound = b + 1 := ⟨bound - 1, by omega⟩
  have hcomment : skipComment? ('\n' :: rest) = some ('\n' :: rest) :=
    skipComment?_append [] (by simp) rfl (by decide) rest
  rw [Nat.add_sub_cancel] at hothers
  rw [List.cons_append] at hread ⊢
  simp [statementsUpTo, skipLines_cons hc, hread, hcomment, afterNewline?_newline, hothers]

/-! ## Documents -/

/-- The statements that a section stands for. -/
def Section.statements (s : Section) : List Statement :=
  .header [s.name] :: s.entries.map fun (key, item) => .entry [key] item.value

/-- A section without quotes around its name and its keys. -/
structure Section.IsBare (s : Section) : Prop where
  name : isBareKey s.name = true
  keys : ∀ entry ∈ s.entries, isBareKey entry.1 = true

theorem readsAs_entries {statements : List Statement} {entries : List (String × Item)}
    (hkeys : ∀ entry ∈ entries, isBareKey entry.1 = true) (h : ReadsAs rest statements) :
    ReadsAs (entries.flatMap (fun (key, item) =>
        key.toList ++ " = ".toList ++ itemChars item ++ ['\n']) ++ rest)
      (entries.map (fun (key, item) => .entry [key] item.value) ++ statements) := by
  induction entries with
  | nil => exact h
  | cons entry entries ih =>
    obtain ⟨key, item⟩ := entry
    obtain ⟨hkey, hkeys⟩ := List.forall_mem_cons.mp hkeys
    obtain ⟨c, tail, hchars, hc⟩ := exists_cons_of_isBareKey hkey
    have hline := statement?_entry hkey item (entries.flatMap (fun (key, item) =>
      key.toList ++ " = ".toList ++ itemChars item ++ ['\n']) ++ rest)
    rw [hchars] at hline
    have := ReadsAs.line c _ (ih hkeys) (isSolid_of_isBareKeyChar hc) hline
    simpa [hchars] using this

theorem readsAs_sectionChars {section_ : Section} {statements : List Statement}
    (hsection : section_.IsBare) (h : ReadsAs rest statements) :
    ReadsAs (sectionChars section_ ++ rest) (section_.statements ++ statements) := by
  have hentries := readsAs_entries hsection.keys h
  have := ReadsAs.line '[' (section_.name.toList ++ [']']) hentries (by decide)
    (by simpa using statement?_header hsection.name _)
  simpa [sectionChars, Section.statements] using this

theorem readsAs_join {sections : List Section} (hsections : ∀ s ∈ sections, s.IsBare) :
    ReadsAs (join ['\n'] (sections.map sectionChars)) (sections.flatMap Section.statements) := by
  induction sections with
  | nil => exact .nil
  | cons first sections ih =>
    obtain ⟨hfirst, hsections⟩ := List.forall_mem_cons.mp hsections
    cases sections with
    | nil => simpa [join] using readsAs_sectionChars hfirst .nil
    | cons next sections =>
      have := readsAs_sectionChars hfirst (ih hsections).newline
      simpa [join] using this

/-- A document that is written is read as the headers and entries of its sections. -/
theorem parse?_render {sections : List Section} (hsections : ∀ s ∈ sections, s.IsBare) :
    parse? (render sections) = ofStatements? (sections.flatMap Section.statements) := by
  have hread := readsAs_join hsections
  have hmark : withoutMark (join ['\n'] (sections.map sectionChars)) =
      join ['\n'] (sections.map sectionChars) := by
    match sections with
    | [] => rfl
    | [first] => rfl
    | first :: next :: sections => rfl
  rw [parse?, render, String.toList_ofList]
  simp only [hmark, hread _ (Nat.lt_succ_self _), bind, Option.bind_some]

end PluginWorkshop.Toml
