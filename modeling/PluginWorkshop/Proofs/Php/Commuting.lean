import PluginWorkshop.Proofs.Php.PassedLines
import PluginWorkshop.Proofs.Php.Rereading

/-!
# Wiring a class and assigning the plugin object

Neither edit disturbs a search of the other one. The lines of a wiring are passed over by the search
for the plugin object (`passed_of_mem_wiringInsertions`), and the line of the plugin object looks
the same to a wiring with an assignment put on it (`wiringInsertions_set_bindLine`). So both orders
put the same lines on the same places, which may be exchanged (`replace_insertLines`).

Between the two edits the text is written and read again. A variable that is bound already has to be
found then for both orders to leave the same text, and nothing else keeps them from it
(`commute_iff_staysBound`). It is found unless the text ends in a carriage return.
-/

namespace PluginWorkshop.Php

open Text

variable {path : Path} {source r : SourceText} {insertions : List Insertion}
  {property statement : Line} {text variableName : String} {wired bound : PatchOutcome} {index : Nat}

/-! ## One edit after the other -/

theorem mem_of_locate (h : bareInstantiation.locate source.lines = .found index) {line : Line}
    (hline : source.lines[index]? = some line) : 'n' ∈ line := by
  obtain ⟨_, code, hline', hmasks, hnew⟩ := exists_line_of_locate h
  obtain rfl := Option.some.inj (hline.symm.trans hline')
  exact mem_of_masks hmasks (mem_of_instantiates hnew) (by decide)

theorem findBinding?_insertLines (htexts : ClassTexts property statement)
    (hname : isIdentifier variableName.toList = true) (hinsertable : Insertable source insertions)
    (h : wiringInsertions path source.lines property statement = .ok insertions) :
    findBinding? (insertLines source insertions).lines variableName =
      (findBinding? source.lines variableName).map (movedBy insertions) := by
  have htest : bindsNew variableName.toList ∈ instanceTests variableName.toList := by
    simp [instanceTests]
  have hpassed := passed_of_mem_wiringInsertions htexts hname htest h
  cases hbinding : findBinding? source.lines variableName with
  | none =>
    rw [Option.map_none, findBinding?_eq_none]
    intro j hselects
    obtain ⟨i, -, hi⟩ := (selects_insertLines hinsertable hpassed).mp hselects
    exact findBinding?_eq_none.mp hbinding i hi
  | some k =>
    have hfound := firstMatch_eq_found.mpr (findBinding?_eq_some.mp hbinding)
    exact findBinding?_eq_some.mpr
      (firstMatch_eq_found.mp (firstMatch_insertLines hinsertable hpassed hfound))

theorem locate_insertLines (htexts : ClassTexts property statement)
    (hinsertable : Insertable source insertions)
    (h : wiringInsertions path source.lines property statement = .ok insertions)
    (hfound : bareInstantiation.locate source.lines = .found index) :
    bareInstantiation.locate (insertLines source insertions).lines =
      .found (movedBy insertions index) := by
  -- Any variable will do.
  have hname : isIdentifier ['x'] = true := rfl
  have htest : instantiates ∈ instanceTests ['x'] := List.mem_cons_self
  exact firstMatch_insertLines hinsertable
    (passed_of_mem_wiringInsertions htexts hname htest h) hfound

theorem exists_join_eq (sep : List Char) (b : List Line) (a : List Line) :
    ∃ front behind, ∀ line, join sep (a ++ line :: b) = front ++ line ++ behind := by
  induction a with
  | nil =>
    cases b with
    | nil => exact ⟨[], [], fun line => by simp [join]⟩
    | cons next b => exact ⟨[], sep ++ join sep (next :: b), fun line => by simp [join]⟩
  | cons first a ih =>
    obtain ⟨front, behind, h⟩ := ih
    refine ⟨first ++ sep ++ front, behind, fun line => ?_⟩
    rw [List.cons_append, join_cons_of_ne_nil (by simp), h]
    simp

/-- A line that gets longer changes the text. -/
theorem render_replace_ne {old line : Line} (hold : source.lines[index]? = some old)
    (hlength : old.length < line.length) :
    (source.replace index line).render ≠ source.render := by
  intro heq
  have hchars := congrArg (List.length ∘ String.toList) heq
  obtain ⟨a, b, hlines, rfl⟩ := exists_append_of_getElem? hold
  obtain ⟨front, behind, hjoin⟩ := exists_join_eq source.lineEnding.chars b a
  have hset : (source.replace a.length line).lines = a ++ line :: b := by
    rw [SourceText.replace, hlines, set_length_append]
  simp only [Function.comp_apply, SourceText.render, String.toList_ofList, SourceText.renderChars,
    hset, hlines, hjoin, List.length_append] at hchars
  have hends : (source.replace a.length line).trailingNewline = source.trailingNewline := rfl
  have hending : (source.replace a.length line).lineEnding = source.lineEnding := rfl
  rw [hends, hending, hjoin] at hchars
  simp only [List.length_append] at hchars
  omega

theorem length_lt_bindLine (name line : Line) : line.length < (bindLine name line).length := by
  have hline := congrArg List.length (indentation_append_afterIndentation line)
  rw [List.length_append] at hline
  simp only [bindLine, List.length_append, List.length_cons]
  omega

/-- Either edit can be made after the other one, and both orders leave the same text. -/
def Commute (path : Path) (text : String) (first second : BootstrapEdit) : Prop :=
  ∃ one other both both', plan path text first = .ok one ∧ plan path text second = .ok other ∧
    plan path one.content second = .ok both ∧ plan path other.content first = .ok both' ∧
    both.content = both'.content

/-- A variable that is bound in the text is bound in the text as it is written again. -/
def StaysBound (text variableName : String) : Prop :=
  (findBinding? (SourceText.parse text).lines variableName).isSome = true →
    (findBinding? (SourceText.parse (SourceText.parse text).render).lines variableName).isSome =
      true

section Wired

variable {w : Wiring}

/-- The lines that are read of a text in which a class is wired. -/
theorem Rereads.exists_insertLines (hr : Rereads (SourceText.parse text) r) (hw : w.EndsNoComment)
    (hwired : plan path text w.edit = .ok wired) : ∃ insertions,
      wiringInsertions path r.lines w.declaration.toList w.statement.toList = .ok insertions ∧
      Insertable r insertions ∧ SourceText.parse wired.content = insertLines r insertions := by
  have htexts := w.classTexts hw
  obtain ⟨insertions, hinsertions, rfl⟩ := plan_wireClass_eq_ok.mp hwired
  have hr' := hr.wiringInsertions_eq htexts hinsertions
  have hproperty := htexts.property_wirable.isOneLine
  have hstatement := htexts.statement_wirable.isOneLine
  exact ⟨insertions, hr', (insertable_of_wiringInsertions hproperty hstatement hr').2,
    hr.parse_insertLines (insertable_of_wiringInsertions hproperty hstatement hinsertions).2⟩

/-- A variable that is not bound is bound on the same line before and after the wiring. -/
theorem commute_of_unbound (hw : w.EndsNoComment)
    (hname : isIdentifier variableName.toList = true) (hr : Rereads (SourceText.parse text) r)
    (hwired : plan path text w.edit = .ok wired)
    (hbound : plan path text (.bindInstance variableName) = .ok bound)
    (hnone : findBinding? (SourceText.parse text).lines variableName = none) :
    Commute path text w.edit (.bindInstance variableName) := by
  have htexts := w.classTexts hw
  obtain ⟨insertions, hinsertions, hinsertable, hread⟩ := hr.exists_insertLines hw hwired
  rcases plan_bindInstance_eq_ok.mp hbound with ⟨hsome, -⟩ | ⟨-, index, line, hfound, hline, rfl⟩
  · simp [hnone] at hsome
  obtain ⟨line', hline', hread'⟩ := hr.parse_bindLine hname hline (mem_of_locate hfound hline)
  have hfound' := hr.locate_eq hfound
  refine ⟨wired, _, replaceOutcome (insertLines r insertions) (movedBy insertions index)
      (bindLine variableName.toList line'),
    ⟨(insertLines (r.replace index (bindLine variableName.toList line')) insertions).render,
      insertionChanges insertions⟩, hwired, hbound, ?_, ?_, ?_⟩
  · refine plan_bindInstance_eq_ok.mpr (Or.inr ?_)
    rw [hread]
    refine ⟨?_, _, line', locate_insertLines htexts hinsertable hinsertions hfound', ?_, rfl⟩
    · rw [findBinding?_insertLines htexts hname hinsertable hinsertions,
        hr.findBinding?_eq_none hnone, Option.map_none]
    · rw [getElem?_movedBy, hline']
  · rw [Wiring.edit, plan_wireClass_eq_ok, replaceOutcome, hread']
    exact ⟨insertions, wiringInsertions_set_bindLine hname htexts hfound' hline' hinsertions, rfl⟩
  · exact congrArg SourceText.render (replace_insertLines hinsertable index _)

/-- Where the variable is bound already, both edits leave the same text if it stays bound once the
text is written, and else the later one binds it again. -/
theorem commute_iff_of_bound (hw : w.EndsNoComment)
    (hname : isIdentifier variableName.toList = true) (hr : Rereads (SourceText.parse text) r)
    (hwired : plan path text w.edit = .ok wired)
    (hbound : plan path text (.bindInstance variableName) = .ok bound)
    (hsome : (findBinding? (SourceText.parse text).lines variableName).isSome = true) :
    Commute path text w.edit (.bindInstance variableName) ↔
      (findBinding? (SourceText.parse (SourceText.parse text).render).lines variableName).isSome =
        true := by
  have htexts := w.classTexts hw
  obtain ⟨insertions, hinsertions, hinsertable, hread⟩ := hr.exists_insertLines hw hwired
  rcases plan_bindInstance_eq_ok.mp hbound with ⟨-, rfl⟩ | ⟨hnone, -⟩
  case inr => simp [hnone] at hsome
  have hrewired : plan path (SourceText.parse text).render w.edit =
      .ok ⟨(insertLines r insertions).render, insertionChanges insertions⟩ := by
    rw [Wiring.edit, plan_wireClass_eq_ok, hr.parse_render]
    exact ⟨insertions, hinsertions, rfl⟩
  rw [hr.parse_render]
  have hmoved := findBinding?_insertLines htexts hname hinsertable hinsertions
  constructor
  · rintro ⟨wired', bound', both, both', hwired', hbound', hboth, hboth', hcontent⟩
    obtain rfl := Except.ok.inj (hwired.symm.trans hwired')
    obtain rfl := Except.ok.inj (hbound.symm.trans hbound')
    obtain rfl := Except.ok.inj (hrewired.symm.trans hboth')
    rcases plan_bindInstance_eq_ok.mp hboth with ⟨hbinding, -⟩ | ⟨-, index, line, -, hline, rfl⟩
    · rwa [hread, hmoved, Option.isSome_map] at hbinding
    · rw [hread] at hline hcontent
      exact absurd hcontent (render_replace_ne hline (length_lt_bindLine _ line))
  · intro hbinding
    refine ⟨wired, _, ⟨(insertLines r insertions).render, []⟩, _, hwired, hbound, ?_, hrewired, rfl⟩
    refine plan_bindInstance_eq_ok.mpr (Or.inl ?_)
    rw [hread, hmoved, Option.isSome_map]
    exact ⟨hbinding, rfl⟩

theorem commute_iff_of_rereads (hw : w.EndsNoComment)
    (hname : isIdentifier variableName.toList = true) (hr : Rereads (SourceText.parse text) r)
    (hwired : plan path text w.edit = .ok wired)
    (hbound : plan path text (.bindInstance variableName) = .ok bound) :
    Commute path text w.edit (.bindInstance variableName) ↔ StaysBound text variableName := by
  cases hbinding : findBinding? (SourceText.parse text).lines variableName with
  | none =>
    exact iff_of_true (commute_of_unbound hw hname hr hwired hbound hbinding)
      fun hsome => by simp [hbinding] at hsome
  | some index =>
    have hsome : (findBinding? (SourceText.parse text).lines variableName).isSome = true := by
      rw [hbinding]
      rfl
    rw [commute_iff_of_bound hw hname hr hwired hbound hsome, StaysBound]
    exact ⟨fun h _ => h, fun h => h hsome⟩

/-- A text in which a class is wired has lines, and more than an empty one. -/
theorem exists_rereads_of_plan (hwired : plan path text w.edit = .ok wired) :
    ∃ r, Rereads (SourceText.parse text) r := by
  obtain ⟨insertions, hinsertions, -⟩ := plan_wireClass_eq_ok.mp hwired
  obtain ⟨_, _, hdeclare, -⟩ := exists_places_of_wiringInsertions hinsertions
  refine exists_rereads ?_ ?_ <;>
  · intro hlines
    rw [hlines] at hdeclare
    cases hdeclare

theorem staysBound_of_sound (hs : (SourceText.parse text).Sound) (variableName : String) :
    StaysBound text variableName := by
  rw [StaysBound, SourceText.parse_render hs]
  exact id

/-- A wiring and an assignment of the plugin object that can both be planned on a text can be
planned in either order and leave the same text, exactly if a variable that is bound in the text is
found again when the text is written and read. This is so unless the text ends in a carriage
return. -/
theorem commute_iff_staysBound (hw : w.EndsNoComment)
    (hname : isIdentifier variableName.toList = true)
    (hwired : plan path text w.edit = .ok wired)
    (hbound : plan path text (.bindInstance variableName) = .ok bound) :
    (text.toList.getLast? ≠ some '\r' → Commute path text w.edit (.bindInstance variableName)) ∧
      (Commute path text w.edit (.bindInstance variableName) ↔ StaysBound text variableName) := by
  obtain ⟨r, hr⟩ := exists_rereads_of_plan hwired
  have hiff := commute_iff_of_rereads hw hname hr hwired hbound
  refine ⟨fun hreturn => hiff.mpr (staysBound_of_sound ?_ variableName), hiff⟩
  refine SourceText.sound_parse hreturn fun hlines => ?_
  obtain ⟨insertions, hinsertions, -⟩ := plan_wireClass_eq_ok.mp hwired
  rw [hlines] at hinsertions
  cases hinsertions

end Wired

/-! ### A plugin -/

/-- A plugin with the plugin object on its last line, and what it has behind that. -/
def pluginEndingIn (creation : String) : String := "<?php
class P \x7b
    function __construct() \x7b
    \x7d
    function instantiate() \x7b
    \x7d
\x7d
" ++ creation

/-- The plugin with `fooWiring` in it. -/
def wiredPluginEndingIn (creation : String) : String := "<?php
class P \x7b
    public $Foo;
    function __construct() \x7b
    \x7d
    function instantiate() \x7b
        $this->Foo = new \\P\\Foo($this->plugin);
    \x7d
\x7d
" ++ creation

theorem endsNoComment_fooWiring : fooWiring.EndsNoComment where
  slug := by simp [fooWiring]
  singularName := by simp [fooWiring]
  textDomain := by decide

/-- Where the object is created on a line that ends as usual, both orders leave the same text. -/
theorem commute_iff_staysBound_pluginEndingIn :
    Commute "p.php" (pluginEndingIn "new P();\n") fooWiring.edit (.bindInstance "plugin") ∧
      StaysBound (pluginEndingIn "new P();\n") "plugin" := by
  have hwired : plan "p.php" (pluginEndingIn "new P();\n") fooWiring.edit = .ok
      ⟨wiredPluginEndingIn "new P();\n", [⟨3, .inserted, "    public $Foo;"⟩,
        ⟨7, .inserted, "        $this->Foo = new \\P\\Foo($this->plugin);"⟩]⟩ := by
    decide +kernel
  have hbound : plan "p.php" (pluginEndingIn "new P();\n") (.bindInstance "plugin") = .ok
      ⟨pluginEndingIn "$plugin = new P();\n", [⟨8, .replaced, "$plugin = new P();"⟩]⟩ := by
    decide
  obtain ⟨hcommute, hiff⟩ :=
    commute_iff_staysBound endsNoComment_fooWiring (by decide) hwired hbound
  have hboth := hcommute (by decide)
  exact ⟨hboth, hiff.mp hboth⟩

/-- A binding may be read on a line that ends in `new` and a carriage return. Once a class is wired
the carriage return is gone, and the binding with it. -/
theorem not_commute_of_return : ¬ ∀ (path : Path) (text variableName : String) (w : Wiring)
    (wired bound : PatchOutcome), w.EndsNoComment → isIdentifier variableName.toList = true →
      plan path text w.edit = .ok wired → plan path text (.bindInstance variableName) = .ok bound →
        Commute path text w.edit (.bindInstance variableName) := by
  intro h
  have hwired : plan "p.php" (pluginEndingIn "$p = new\r\r") fooWiring.edit = .ok
      ⟨wiredPluginEndingIn "$p = new\r", [⟨3, .inserted, "    public $Foo;"⟩,
        ⟨7, .inserted, "        $this->Foo = new \\P\\Foo($this->plugin);"⟩]⟩ := by
    decide +kernel
  have hbound : plan "p.php" (pluginEndingIn "$p = new\r\r") (.bindInstance "p") =
      .ok ⟨pluginEndingIn "$p = new\r", []⟩ := by
    decide
  have hlost : plan "p.php" (wiredPluginEndingIn "$p = new\r") (.bindInstance "p") =
      .error (.anchorNotFound instantiationLabel "p.php") := by
    decide +kernel
  obtain ⟨one, other, both, both', hone, -, hboth, -, -⟩ :=
    h "p.php" _ "p" fooWiring _ _ endsNoComment_fooWiring (by decide) hwired hbound
  obtain rfl := Except.ok.inj (hwired.symm.trans hone)
  cases hlost.symm.trans hboth

end PluginWorkshop.Php
