import PluginWorkshop.Proofs.Manifest.Saving

/-!
# What saving leaves alone

A manifest that changed is saved in the layout of its source, and the members that did not change
keep their text (`Sound.lookup_render_of_same`). Only line endings that stood in the source or that
it is saved with come into the text: where the source has no carriage return before a line feed, the
text has none (`Sound.layout_render`), and where it has one before every line feed, so has the text
(`Sound.allCrlf_render`).
-/

namespace PluginWorkshop

open Text

/-! ## Texts with one line ending -/

namespace Text

/-- Every line feed follows a carriage return. -/
def AllCrlf (s : List Char) : Prop :=
  ∀ front rest, s = front ++ '\n' :: rest → front.getLast? = some '\r'

theorem allCrlf_of_notMem {s : List Char} (h : '\n' ∉ s) : AllCrlf s := by
  rintro front rest rfl
  simp at h

theorem allCrlf_crlf : AllCrlf ['\r', '\n'] := by
  intro front rest h
  match front, h with
  | [], h => simp at h
  | [c], h =>
    obtain ⟨rfl, -⟩ := List.cons.inj h
    rfl
  | c :: d :: front, h => simp at h

theorem AllCrlf.append {a b : List Char} (ha : AllCrlf a) (hb : AllCrlf b) : AllCrlf (a ++ b) := by
  intro front rest h
  rcases List.append_eq_append_iff.mp h with ⟨front', rfl, hb'⟩ | ⟨tail, ha', hrest⟩
  · rw [List.getLast?_append, hb front' rest hb', Option.some_or]
  · cases tail with
    | nil =>
      have hnil := hb [] rest hrest.symm
      simp at hnil
    | cons c tail =>
      obtain ⟨rfl, rfl⟩ : '\n' = c ∧ rest = tail ++ b := by simpa using hrest
      exact ha front tail ha'

/-- A part of a text that does not start inside a line ending. -/
theorem AllCrlf.of_isInfix {s t : List Char} (h : AllCrlf t) (hs : s <:+: t)
    (hhead : s.head? ≠ some '\n') : AllCrlf s := by
  rintro front rest rfl
  obtain ⟨before, after, rfl⟩ := hs
  have hlast := h (before ++ front) (rest ++ after) (by simp)
  cases front with
  | nil => simp at hhead
  | cons c front =>
    rw [List.getLast?_append] at hlast
    cases hfront : (c :: front).getLast? with
    | none => simp at hfront
    | some d => simpa [hfront] using hlast

theorem allCrlf_commaSeparated : ∀ {items : List (List Char)}, (∀ item ∈ items, AllCrlf item) →
    AllCrlf (Json.commaSeparated items)
  | [], _ => allCrlf_of_notMem (by simp [Json.commaSeparated])
  | [item], h => h item (by simp)
  | item :: next :: items, h => by
    have hcomma : AllCrlf [','] := allCrlf_of_notMem (by decide)
    rw [Json.commaSeparated, ← List.singleton_append]
    exact (h item (by simp)).append <| hcomma.append <|
      allCrlf_commaSeparated fun x hx => h x (List.mem_cons_of_mem _ hx)

theorem allCrlf_replaceChar {sep : List Char} (hsep : AllCrlf sep) (s : List Char) :
    AllCrlf (replaceChar '\n' sep s) := by
  induction s with
  | nil => exact allCrlf_of_notMem (by simp [replaceChar])
  | cons c s ih =>
    have hcons : replaceChar '\n' sep (c :: s) =
        (if c == '\n' then sep else [c]) ++ replaceChar '\n' sep s := rfl
    rw [hcons]
    refine AllCrlf.append ?_ ih
    split
    · exact hsep
    · next hc =>
      refine allCrlf_of_notMem fun hmem => hc ?_
      rw [List.mem_singleton.mp hmem, beq_self_eq_true]

end Text

namespace Layout

variable {layout : Layout} (hcrlf : layout.crlf = true)
include hcrlf

theorem allCrlf_eol : AllCrlf layout.eol := by
  rw [eol, if_pos hcrlf]
  exact allCrlf_crlf

theorem allCrlf_eol_indent : AllCrlf (layout.eol ++ layout.indent) :=
  (allCrlf_eol hcrlf).append (allCrlf_of_notMem layout.isIndent.newline_notMem)

theorem allCrlf_printed (value : Json) : AllCrlf (layout.printed value) :=
  allCrlf_replaceChar (allCrlf_eol_indent hcrlf) _

theorem allCrlf_write {document : Members} {text : String × Json → List Char}
    (htext : ∀ m ∈ document, AllCrlf (text m)) :
    AllCrlf (layout.write document text).toList := by
  have hlines : AllCrlf
      (Json.commaSeparated (document.map fun m => layout.line m.1 (text m))) := by
    refine allCrlf_commaSeparated fun line hline => ?_
    obtain ⟨m, hm, rfl⟩ := List.mem_map.mp hline
    have hkey : AllCrlf (Json.quote m.1 ++ ": ".toList) :=
      allCrlf_of_notMem (by simp [(Json.isPlain_quote m.1).newline_notMem])
    rw [line, List.append_assoc _ (Json.quote m.1)]
    exact ((allCrlf_eol_indent hcrlf).append hkey).append (htext m hm)
  have hclosing : AllCrlf (layout.closing document) := by
    unfold closing
    split
    · exact allCrlf_of_notMem List.not_mem_nil
    · exact allCrlf_eol hcrlf
  have hending : AllCrlf layout.ending := by
    unfold ending
    split
    · exact allCrlf_eol hcrlf
    · exact allCrlf_of_notMem List.not_mem_nil
  have hopening : AllCrlf ['\x7b'] := allCrlf_of_notMem (by decide)
  have hbrace : AllCrlf ['\x7d'] := allCrlf_of_notMem (by decide)
  rw [write, String.toList_ofList]
  simpa using ((hopening.append hlines).append hclosing).append (hbrace.append hending)

end Layout

namespace Manifest

/-! ## Edits remember the source -/

theorem apply_from (manifest : Manifest) (edit : Edit) :
    (manifest.apply edit).loaded = manifest.loaded ∧
      (manifest.apply edit).source = manifest.source := by
  cases edit with
  | insertDependency package constraint =>
    rw [apply, insertDependency]
    cases manifest.objectUnder "require" <;> exact ⟨rfl, rfl⟩
  | removeDependency package =>
    rw [apply]
    cases hedit : manifest.removeDependency? package with
    | none => exact ⟨rfl, rfl⟩
    | some edited =>
      simp only [removeDependency?, Option.bind_eq_bind, Option.bind_eq_some_iff] at hedit
      obtain ⟨_, -, _, -, _, -, hpair⟩ := hedit
      cases hpair
      exact ⟨rfl, rfl⟩
  | addAutoloadFile file =>
    rw [apply, addAutoloadFile]
    cases manifest.objectUnder "autoload" with
    | error e => exact ⟨rfl, rfl⟩
    | ok autoload =>
      simp only [bind, Except.bind]
      split
      · exact ⟨rfl, rfl⟩
      · split <;> exact ⟨rfl, rfl⟩
      · exact ⟨rfl, rfl⟩
  | removeAutoloadFile file =>
    rw [apply, removeAutoloadFile]
    split
    · split <;> exact ⟨rfl, rfl⟩
    · exact ⟨rfl, rfl⟩

theorem run_from (manifest : Manifest) (edits : List Edit) :
    (manifest.run edits).loaded = manifest.loaded ∧
      (manifest.run edits).source = manifest.source := by
  induction edits generalizing manifest with
  | nil => exact ⟨rfl, rfl⟩
  | cons edit edits ih =>
    obtain ⟨hloaded, hsource⟩ := manifest.apply_from edit
    exact ⟨(ih _).1.trans hloaded, (ih _).2.trans hsource⟩

/-! ## A manifest that changed -/

namespace Sound

variable {manifest : Manifest} (h : manifest.Sound)
include h

section

variable (hchanged : (Json.object manifest.document).same (.object manifest.loaded) = false)
include hchanged

/-- No edit takes all members away. -/
theorem document_ne_nil : manifest.document ≠ [] := by
  intro hnil
  have hloaded : manifest.loaded = [] := by
    have hkeys := h.keys
    rw [hnil] at hkeys
    simpa [Members.keys] using hkeys
  rw [hnil, hloaded] at hchanged
  exact absurd hchanged (by decide)

/-- The text under each key of what is written. -/
theorem lookup_render {m : String × Json} (hm : m ∈ manifest.document) :
    (Json.memberSources manifest.render).reverse.lookup m.1 =
      some (String.ofList (manifest.textOf m)) := by
  choose! value hvalue hsource using
    fun m (hm : m ∈ manifest.document) => h.exists_isSource_textOf hm
  rw [h.render_of_changed hchanged, Layout.memberSources_write _ hsource]
  refine Members.lookup_reverse_of_mem ?_
    (List.mem_map_of_mem (f := fun m => (m.1, String.ofList (manifest.textOf m))) hm)
  rw [List.map_map]
  exact h.readable.1

/-- A member with the value that was loaded keeps its text. -/
theorem lookup_render_of_same {key : String} {before now : Json}
    (hbefore : Members.get? key manifest.loaded = some before)
    (hnow : Members.get? key manifest.document = some now) (hsame : before.same now = true) :
    ∃ slice, (Json.memberSources manifest.source).reverse.lookup key = some slice ∧
      (Json.memberSources manifest.render).reverse.lookup key = some slice := by
  refine ⟨_, (Json.lookup_sourceOf h.loaded hbefore).1, ?_⟩
  rw [h.lookup_render hchanged (Members.mem_of_get? hnow), h.textOf_of_same hbefore hsame]

end

/-- The text of a member stood in the source, or it is printed. -/
theorem textOf_cases (m : String × Json) :
    (∃ v, Members.get? m.1 manifest.loaded = some v ∧
      manifest.textOf m = Json.sourceOf manifest.source m.1) ∨
    manifest.textOf m = (Layout.of manifest.source).printed m.2 := by
  by_cases hkept : ∃ v, Members.get? m.1 manifest.loaded = some v ∧ v.same m.2 = true
  · obtain ⟨v, hv, hsame⟩ := hkept
    exact Or.inl ⟨v, hv, h.textOf_of_same hv hsame⟩
  · exact Or.inr (h.textOf_of_changed (by simpa using hkept))

/-- What is written has the layout of the source. -/
theorem layout_render
    (hchanged : (Json.object manifest.document).same (.object manifest.loaded) = false) :
    Layout.of manifest.render = Layout.of manifest.source := by
  rw [h.render_of_changed hchanged]
  refine Layout.of_write _ (h.document_ne_nil hchanged) fun hlf m hm => ?_
  rcases h.textOf_cases m with ⟨v, hv, htext⟩ | htext
  · obtain ⟨-, hsource, hinfix⟩ := Json.lookup_sourceOf h.loaded hv
    have hreturn := hsource.getLast?_ne_return
    dsimp only at hreturn
    rw [htext]
    exact Json.unbroken_of_isInfix hinfix hlf hreturn
  · rw [htext]
    exact Layout.unbroken_printed hlf (h.readable.2 m hm)

theorem allCrlf_render
    (hchanged : (Json.object manifest.document).same (.object manifest.loaded) = false)
    (hcrlf : containsText ['\r', '\n'] manifest.source.toList = true)
    (hall : AllCrlf manifest.source.toList) : AllCrlf manifest.render.toList := by
  rw [h.render_of_changed hchanged]
  refine Layout.allCrlf_write hcrlf fun m hm => ?_
  rcases h.textOf_cases m with ⟨v, hv, htext⟩ | htext
  · obtain ⟨-, ⟨-, c, tail, hstart, hc, -⟩, hinfix⟩ := Json.lookup_sourceOf h.loaded hv
    rw [htext]
    refine hall.of_isInfix hinfix ?_
    dsimp only at hstart
    rw [hstart]
    rintro ⟨⟩
    simp [Json.isSpace] at hc
  · rw [htext]
    exact Layout.allCrlf_printed hcrlf m.2

end Sound

/-- Whether an edit changes a manifest but not the value under a key. -/
def changesBut (manifest : Manifest) (edit : Edit) (key : String) : Bool :=
  !(Json.object (manifest.run [edit]).document).same (.object manifest.document) &&
    match Members.get? key manifest.document, Members.get? key (manifest.run [edit]).document with
    | some before, some now => before.same now
    | _, _ => false

end Manifest

end PluginWorkshop
