import PluginWorkshop.Manifest.Basic
import PluginWorkshop.Proofs.Json.LineBreaks

/-!
# The layout of a manifest

A manifest is saved with the line ending and the indentation that are found in the text it was read
from, and with a line ending at its end if that text has one. What is written in a layout
(`Layout.write`) is read as the members it was written from (`parse_write`), each with its own text
(`sourceOf_write`), and the layout found in it is the one it was written in (`of_write`): a second
save finds what the first one found.
-/

namespace PluginWorkshop

open Text

namespace Manifest

theorem isIndent_indentOf (text : String) : Json.IsIndent (indentOf text).toList := by
  unfold indentOf
  split
  · next indent h =>
    obtain ⟨line, -, rfl⟩ := List.mem_map.mp (List.mem_of_find?_eq_some h)
    intro c hc
    rw [String.toList_ofList] at hc
    exact List.mem_takeWhile_imp hc
  · simp [Json.IsIndent, isSpaceOrTab]

theorem indentOf_ne_nil (text : String) : (indentOf text).toList ≠ [] := by
  unfold indentOf
  split
  · next indent h => simpa using List.find?_some h
  · simp

end Manifest

/-- The layout of a text. -/
@[ext] structure Layout where
  /-- Lines end with a carriage return and a line feed. -/
  crlf : Bool
  /-- The indentation of one level. -/
  indent : List Char
  isIndent : Json.IsIndent indent
  indent_ne_nil : indent ≠ []
  /-- A line ending stands at the end. -/
  trailing : Bool

namespace Layout

/-- The layout that is found in a text. -/
def of (text : String) : Layout where
  crlf := containsText ['\r', '\n'] text.toList
  indent := (Manifest.indentOf text).toList
  isIndent := Manifest.isIndent_indentOf text
  indent_ne_nil := Manifest.indentOf_ne_nil text
  trailing := Manifest.endsWithNewline text

@[simp] theorem of_crlf (text : String) :
    (of text).crlf = containsText ['\r', '\n'] text.toList := rfl

@[simp] theorem of_indent (text : String) : (of text).indent = (Manifest.indentOf text).toList :=
  rfl

@[simp] theorem of_trailing (text : String) :
    (of text).trailing = Manifest.endsWithNewline text := rfl

variable (layout : Layout)

def eol : List Char := if layout.crlf then ['\r', '\n'] else ['\n']

/-- A member on a line of its own. -/
def line (key : String) (text : List Char) : List Char :=
  layout.eol ++ layout.indent ++ Json.quote key ++ ": ".toList ++ text

/-- What comes before the closing brace. -/
def closing (document : Members) : List Char := if document.isEmpty then [] else layout.eol

/-- What comes after the closing brace. -/
def ending : List Char := if layout.trailing then layout.eol else []

/-- The members of a document between braces, with texts for their values. -/
def write (document : Members) (text : String × Json → List Char) : String :=
  String.ofList ('\x7b' :: Json.commaSeparated (document.map fun m => layout.line m.1 (text m)) ++
    layout.closing document ++ '\x7d' :: layout.ending)

/-- A value on several lines, one level in. -/
def printed (value : Json) : List Char :=
  replaceChar '\n' (layout.eol ++ layout.indent) (Json.prettyChars [] layout.indent value)

theorem isGap_eol : Json.IsGap layout.eol := by
  unfold eol
  split <;> simp [Json.IsGap, Json.isSpace]

theorem isGap_closing (document : Members) : Json.IsGap (layout.closing document) := by
  unfold closing
  split
  · exact Json.isGap_nil
  · exact layout.isGap_eol

theorem isGap_ending : Json.IsGap layout.ending := by
  unfold ending
  split
  · exact layout.isGap_eol
  · exact Json.isGap_nil

theorem isSource_printed (key : String) {depth : Nat} {v : Json} (hv : Json.Readable depth v) :
    Json.IsSource depth (key, v, layout.printed v) := by
  have hsep := layout.isGap_eol.append layout.isIndent.isGap
  exact ⟨Json.takes_prettyChars hsep layout.isIndent (by simp [Json.IsIndent]) hv,
    (Json.starts_prettyChars (Or.inr rfl) hv).ne_space⟩

variable {layout} in
theorem eol_of_lf (h : layout.crlf = false) : layout.eol = ['\n'] := by simp [eol, h]

variable {layout} in
theorem unbroken_printed (h : layout.crlf = false) {depth : Nat} {v : Json}
    (hv : Json.Readable depth v) : Json.Unbroken (layout.printed v) := by
  refine Json.unbroken_of_return_notMem <| Json.return_notMem_replaceChar ?_ <|
    Json.return_notMem_prettyChars layout.isIndent (by simp [Json.IsIndent]) hv
  simp [eol_of_lf h, layout.isIndent.return_notMem]

variable {document : Members} {text : String × Json → List Char}

theorem write_congr {text' : String × Json → List Char} (h : ∀ m ∈ document, text m = text' m) :
    layout.write document text = layout.write document text' := by
  have hlines : document.map (fun m => layout.line m.1 (text m)) =
      document.map fun m => layout.line m.1 (text' m) :=
    List.map_congr_left fun m hm => by rw [h m hm]
  rw [write, write, hlines]

/-! ## Reading what was written -/

/-- The lines of the members are read as a sequence, whatever reads the values. -/
theorem sequenceText_lines {read : Json.Reader α} {g : String × Json → α}
    (h : ∀ m ∈ document, Json.Takes read (text m) (g m) ∧ Json.Starts ' ' (text m)) :
    Json.SequenceText .object (Json.member Json.stringText fun _ => read)
      (Json.commaSeparated (document.map fun m => layout.line m.1 (text m)) ++
        layout.closing document ++ [Json.Bracket.object.close])
      (document.map fun m => (m.1, g m)) := by
  refine Json.sequenceText_commaSeparated (layout.isGap_closing document) fun m hm => ?_
  obtain ⟨htakes, hstarts⟩ := h m hm
  refine ⟨layout.eol ++ layout.indent, _, ?_, layout.isGap_eol.append layout.isIndent.isGap,
    .of_head rfl (by decide), (Json.memberText_quote (fun _ => read) m.1 hstarts htakes).takes⟩
  simp [line, Json.quote]

theorem parse_write {g : String × Json → Json} (hnodup : document.keys.Nodup)
    (h : ∀ m ∈ document, Json.IsSource (Json.maxDepth - 1) (m.1, g m, text m)) :
    Json.parse (layout.write document text) =
      .ok (.object (document.map fun m => (m.1, g m))) := by
  have hkeys : Members.keys (document.map fun m => (m.1, g m)) = document.keys := by
    simp [Members.keys]
  have hread := (Json.ValueText.object rfl (layout.sequenceText_lines h)).takes
  rw [Members.ofList_of_nodup (hkeys ▸ hnodup), ← Json.value_maxDepth] at hread
  rw [Json.parse, write, String.toList_ofList]
  simpa [Json.Bracket.object] using Json.wholeText_of_takes hread layout.isGap_ending

theorem memberSources_write {g : String × Json → Json}
    (h : ∀ m ∈ document, Json.IsSource (Json.maxDepth - 1) (m.1, g m, text m)) :
    Json.memberSources (layout.write document text) =
      document.map fun m => (m.1, String.ofList (text m)) := by
  have htakes : ∀ m ∈ document, Json.Takes (Json.withSource (Json.value (Json.maxDepth - 1)))
      (text m) (g m, text m) ∧ Json.Starts ' ' (text m) := fun m hm =>
    ⟨(h m hm).1.withSource, (h m hm).2⟩
  have hseq := layout.sequenceText_lines htakes
  have hread := hseq.takes (Or.inr rfl) layout.ending layout.isGap_ending.ends_self
  rw [Json.memberSources, write, String.toList_ofList, List.cons_append, List.cons_append,
    Json.skipSpace_cons rfl]
  simp only [Json.Bracket.object, List.append_assoc, List.singleton_append] at hread ⊢
  rw [hread]
  simp

/-! ## The layout of what was written -/

theorem exists_commaSeparated_cons (item : List Char) (items : List (List Char)) :
    ∃ tail, Json.commaSeparated (item :: items) = item ++ tail := by
  cases items with
  | nil => exact ⟨[], by simp [Json.commaSeparated]⟩
  | cons next items => exact ⟨_, rfl⟩

/-- The first member stands on the second line. -/
theorem exists_write_eq (text : String × Json → List Char) (hne : document ≠ []) : ∃ tail, (layout.write document text).toList =
    '\x7b' :: layout.eol ++ layout.indent ++ '"' :: tail := by
  obtain ⟨m, members, rfl⟩ := List.exists_cons_of_ne_nil hne
  obtain ⟨tail, htail⟩ := exists_commaSeparated_cons (layout.line m.1 (text m))
    (members.map fun m => layout.line m.1 (text m))
  rw [write, String.toList_ofList, List.map_cons, htail, line, Json.quote]
  exact ⟨_, by simp only [List.cons_append, List.append_assoc, List.nil_append]; rfl⟩

theorem indentOf_write (text : String × Json → List Char) (hne : document ≠ []) :
    (Manifest.indentOf (layout.write document text)).toList = layout.indent := by
  obtain ⟨tail, htail⟩ := layout.exists_write_eq text hne
  obtain ⟨front, hfront, hnotMem⟩ : ∃ front, layout.eol = front ++ ['\n'] ∧ '\n' ∉ front := by
    unfold eol
    split
    · exact ⟨['\r'], rfl, by decide⟩
    · exact ⟨[], rfl, by simp⟩
  obtain ⟨first, pieces, hpieces⟩ := List.exists_cons_of_ne_nil (splitWhere_ne_nil (· == '\n') tail)
  have hindent : '\n' ∉ layout.indent ++ ['"'] := by
    simp [layout.isIndent.newline_notMem]
  have hlines : splitOn '\n' (layout.write document text).toList =
      ('\x7b' :: front) :: (layout.indent ++ ['"'] ++ first) :: pieces := by
    have hbrace : '\n' ∉ '\x7b' :: front := by simp [hnotMem]
    have hsecond := splitOn_append_of_notMem hindent hpieces
    rw [htail, hfront]
    have : '\x7b' :: (front ++ ['\n']) ++ layout.indent ++ '"' :: tail =
        ('\x7b' :: front) ++ '\n' :: (layout.indent ++ ['"'] ++ tail) := by simp
    rw [this, splitOn_append_cons, splitOn_of_notMem hbrace, hsecond]
    rfl
  have hspaces : indentation (layout.indent ++ ['"'] ++ first) = layout.indent := by
    rw [indentation, List.append_assoc, List.takeWhile_append_of_pos layout.isIndent]
    simp [isSpaceOrTab]
  have hfind : (layout.indent :: pieces.map indentation).find? (!·.isEmpty) =
      some layout.indent := List.find?_cons_of_pos (by simp [layout.indent_ne_nil])
  rw [Manifest.indentOf, hlines, List.drop_succ_cons, List.drop_zero, List.map_cons, hspaces, hfind]
  exact String.toList_ofList

theorem containsText_write (hne : document ≠ [])
    (hunbroken : layout.crlf = false → ∀ m ∈ document, Json.Unbroken (text m)) :
    containsText ['\r', '\n'] (layout.write document text).toList = layout.crlf := by
  cases hcrlf : layout.crlf with
  | true =>
    obtain ⟨tail, htail⟩ := layout.exists_write_eq text hne
    rw [containsText_iff, htail]
    exact ⟨['\x7b'], layout.indent ++ '"' :: tail, by simp [eol, hcrlf]⟩
  | false =>
    have heol := eol_of_lf hcrlf
    have hlines : Json.Unbroken
        (Json.commaSeparated (document.map fun m => layout.line m.1 (text m))) := by
      refine Json.unbroken_commaSeparated fun line hline => ?_
      obtain ⟨m, hm, rfl⟩ := List.mem_map.mp hline
      refine (Json.unbroken_of_return_notMem ?_).append (hunbroken hcrlf m hm)
      simp [heol, layout.isIndent.return_notMem, (Json.isPlain_quote m.1).return_notMem]
    have hclosing : '\r' ∉ layout.closing document := by
      unfold closing
      split <;> simp [heol]
    have hending : '\r' ∉ layout.ending := by
      unfold ending
      split <;> simp [heol]
    have hopening : Json.Unbroken ['\x7b'] := Json.unbroken_of_return_notMem (by decide)
    have hafter : Json.Unbroken (layout.closing document ++ '\x7d' :: layout.ending) :=
      Json.unbroken_of_return_notMem (by simp [hclosing, hending])
    rw [write, String.toList_ofList]
    simpa using ((hopening.append hlines).append hafter).containsText

theorem endsWithNewline_write (document : Members) (text : String × Json → List Char) :
    Manifest.endsWithNewline (layout.write document text) = layout.trailing := by
  rw [Manifest.endsWithNewline, write, String.toList_ofList, List.getLast?_append]
  cases htrailing : layout.trailing with
  | true => cases hcrlf : layout.crlf <;> simp [ending, eol, htrailing, hcrlf]
  | false => simp [ending, htrailing]

/-- What is written in a layout has that layout, unless a text brings in other line endings. -/
theorem of_write (hne : document ≠ [])
    (hunbroken : layout.crlf = false → ∀ m ∈ document, Json.Unbroken (text m)) :
    of (layout.write document text) = layout :=
  Layout.ext (by rw [of_crlf, layout.containsText_write hne hunbroken])
    (by rw [of_indent, layout.indentOf_write text hne])
    (by rw [of_trailing, layout.endsWithNewline_write])

/-! ## Texts that fit a document -/

/-- Texts that are read as the values of a document and bring in no other line endings. -/
structure Fits (layout : Layout) (document : Members) (text : String × Json → List Char) :
    Prop where
  ne_nil : document ≠ []
  nodup : document.keys.Nodup
  isSource : ∀ m ∈ document, Json.IsSource (Json.maxDepth - 1) (m.1, m.2, text m)
  unbroken : layout.crlf = false → ∀ m ∈ document, Json.Unbroken (text m)

namespace Fits

variable {layout} (h : layout.Fits document text)
include h

theorem parse_write : Json.parse (layout.write document text) = .ok (.object document) := by
  simpa using layout.parse_write h.nodup h.isSource

theorem sourceOf_write {m : String × Json} (hm : m ∈ document) :
    Json.sourceOf (layout.write document text) m.1 = text m := by
  have hkeys : ((document.map fun m => (m.1, String.ofList (text m))).map Prod.fst).Nodup := by
    rw [List.map_map]
    exact h.nodup
  have hlookup := Members.lookup_reverse_of_mem hkeys (List.mem_map_of_mem hm)
  rw [Json.sourceOf, layout.memberSources_write h.isSource, hlookup]
  exact String.toList_ofList

theorem of_write : of (layout.write document text) = layout :=
  layout.of_write h.ne_nil h.unbroken

end Fits

end Layout

end PluginWorkshop
