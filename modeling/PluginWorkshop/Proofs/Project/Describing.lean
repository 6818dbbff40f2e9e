import PluginWorkshop.Proofs.Php.CreatedClasses
import PluginWorkshop.Proofs.Project.SupportFile

/-!
# The class that the support file describes

Adding the variable for the plugin object assigns the object on one line of the main file and writes
a file that tells editors the class of the variable (`Describing`). The class is that of the first
object that is created outside all blocks, whereas the line of the assignment is the first one that
creates an object without assigning it (`add_ideHelper_describes`). Below a line that assigns another
object the support file describes that other object (`not_describes_bound`).
-/

namespace PluginWorkshop

open Os FileTree

variable {machine machine' : Machine} {path : Path} {text : String}

/-! ## The support file -/

/-- The line of the support file that tells the class of the variable. -/
def describingLine (mainClass variableName : String) : String :=
  "    /** @var " ++ mainClass ++ " $" ++ variableName ++ " */"

theorem toList_renderPieces {vars : TemplateVars} {x y v w : String} (hx : vars.get? x = some v)
    (hy : vars.get? y = some w) (a b c : String) :
    ([.text a, .slot x, .text b, .slot y, .text c].map (Template.renderPiece vars)).flatMap
      String.toList = (a ++ v ++ b ++ w ++ c).toList := by
  simp [Template.renderPiece, hx, hy]

theorem describingLine_infix_helperText (project : Project) (mainClass variableName : String) :
    (describingLine mainClass variableName).toList <:+:
      (project.helperText mainClass variableName).toList := by
  have hpieces : Template.ideHelper.pieces = Template.ideHelper.pieces.take 21 ++
      [.text "    /** @var ", .slot "main_class", .text " $", .slot "variable", .text " */"] ++
      Template.ideHelper.pieces.drop 26 :=
    rfl
  generalize hvars : ((TemplateVars.empty.set "plugin_slug" project.slug).set "main_class"
    mainClass).set "variable" variableName = vars
  have hclass : vars.get? "main_class" = some mainClass := by rw [← hvars]; rfl
  have hvariable : vars.get? "variable" = some variableName := by rw [← hvars]; rfl
  rw [Project.helperText, hvars, TemplateName.render, TemplateName.template, Template.render, hpieces,
    List.map_append, List.map_append, String.toList_join, List.flatMap_append, List.flatMap_append,
    toList_renderPieces hclass hvariable]
  exact List.infix_append _ _ _

/-! ## The variable and the support file -/

namespace Project

/-- The variable for the plugin object added to the project at a root: the edit that was planned on
the text of the main file, the class that was read from it, and the two files afterwards. -/
structure Describing (root : Path) (machine machine' : Machine) where
  project : Project
  text : String
  outcome : Php.PatchOutcome
  mainClass : String
  resolve_eq : resolve root machine = .ok project machine
  text_eq : Files.readText project.mainFile machine = .ok text machine
  plan_eq : Php.plan project.mainFile text
    (.bindInstance (bindingVariable project.slug)) = .ok outcome
  mainInstance_eq : Php.mainInstance project.mainFile text = .ok mainClass
  mainFile_eq : Files.readText project.mainFile machine' = .ok outcome.content machine'
  helper_eq : Files.readText (Path.join project.root "ide-helper.php") machine' =
    .ok (project.helperText mainClass (bindingVariable project.slug)) machine'

variable {root : Path} {installer : Installer} {report : ToggleReport}

theorem readText_of_entryAt {modified : Time}
    (h : entryAt machine path = .ok (.file text.toUTF8 modified)) :
    Files.readText path machine = .ok text machine :=
  readText_eq_ok.mpr ⟨rfl, _, _, h, fromUTF8?_toUTF8 text⟩

/-- The new file and the replaced one hold what was put into them. -/
theorem readText_of_withNewFile {support : Path} {content old new : String}
    (hold : Files.readText path machine = .ok old machine)
    (h : Files.withNewFile support content (Files.replaceFile path new) machine = .ok () machine') :
    Files.readText path machine' = .ok new machine' ∧
      Files.readText support machine' = .ok content machine' := by
  obtain ⟨-, bytes, modified, hfile, -⟩ := readText_eq_ok.mp hold
  obtain ⟨place, hlocate, hget⟩ := entryAt_eq_ok.mp hfile
  obtain ⟨faults, opening, hreplace⟩ := Files.withNewFile_ok h
  rw [Files.replaceFile, orFail_eq_ok] at hreplace
  -- The old file is where it was once the new one is made.
  have hlocate' := opening.locate_tree_of_eq_ok content.toUTF8 machine.now hlocate faults
  have hnode := nodeAt_eq_file.mpr hget
  have hfile' := entryAt_eq_ok.mpr ⟨place, hlocate', nodeAt_eq_file.mp
    (opening.nodeAt_tree_of_eq_some content.toUTF8 machine.now hnode)⟩
  obtain ⟨hnew, hshape, hcwd, place', hplace', hnodes⟩ := replaceFile_of_entryAt hfile' hreplace
  obtain rfl : place = place' := Except.ok.inj (hlocate'.symm.trans hplace')
  have hother : opening.place ≠ place := by
    rintro rfl
    rw [opening.nodeAt_place] at hnode
    cases hnode
  have hsupport : machine'.tree.nodeAt opening.place = some (.file content.toUTF8 machine.now) := by
    rw [hnodes, if_neg hother]
    exact nodeAt_eq_file.mpr (opening.get?_tree _ _)
  have hlocated : locate machine' support = .ok opening.place := by
    rw [← locate_congr hshape hcwd.symm]
    exact opening.locate_tree _ _ faults
  exact ⟨readText_of_entryAt hnew, readText_of_entryAt
    (entryAt_eq_ok.mpr ⟨opening.place, hlocated, nodeAt_eq_file.mp hsupport⟩)⟩

theorem add_ideHelper_ok (h : add root .ideHelper installer machine = .ok report machine') :
    ∃ d : Describing root machine machine', report.changes = d.outcome.changes ∧
      bindingLine? d.text (bindingVariable d.project.slug) = none := by
  obtain ⟨project, text, outcome, mainClass, hresolve, htext, hfresh, hplan, hmain, hfiles,
    hchanges⟩ := add_ideHelper_eq_ok h
  obtain ⟨hmainFile, hhelper⟩ := readText_of_withNewFile htext hfiles
  exact ⟨⟨project, text, outcome, mainClass, hresolve, htext, hplan, hmain, hmainFile, hhelper⟩,
    hchanges, hfresh⟩

/-- One line of the main file is changed, that of the bare instantiation. -/
theorem Describing.exists_bound (d : Describing root machine machine')
    (hfresh : bindingLine? d.text (bindingVariable d.project.slug) = none) :
    ∃ bound, d.outcome.changes.map Php.LineChange.line = [bound + 1] ∧
      Php.bareInstantiation.locate (Php.SourceText.parse d.text).lines = .found bound := by
  rcases Php.plan_bindInstance_eq_ok.mp d.plan_eq with
    ⟨hbound, -⟩ | ⟨-, bound, line, hfound, -, heq⟩
  · rw [bindingLine?] at hfresh
    simp [hfresh] at hbound
  · exact ⟨bound, by rw [heq]; rfl, hfound⟩

/-- Where the variable for the plugin object is added, the main file holds the assignment on one line
and the support file tells the class of the first object that is created outside all blocks. That is
the class created on the line of the assignment if the object created there is the first one and the
line starts in code; otherwise it may be that of an object assigned further up, or stand in a
comment. -/
theorem add_ideHelper_describes
    (h : add root .ideHelper installer machine = .ok report machine') :
    ∃ (d : Describing root machine machine') (bound described : Nat) (created : List Char),
      (describingLine d.mainClass (bindingVariable d.project.slug)).toList <:+:
        (d.project.helperText d.mainClass (bindingVariable d.project.slug)).toList ∧
      report.changes.map Php.LineChange.line = [bound + 1] ∧
      Php.createdClass? (Php.SourceText.parse d.text).lines bound = some created ∧
      Php.ClassLine (Php.SourceText.parse d.text).lines bound described d.mainClass.toList ∧
      (described = bound → Php.stateBefore (Php.SourceText.parse d.text).lines bound = .code →
        d.mainClass.toList = created) := by
  obtain ⟨d, hchanges, hfresh⟩ := add_ideHelper_ok h
  obtain ⟨bound, hbound, hfound⟩ := d.exists_bound hfresh
  obtain ⟨created, hcreated⟩ := Php.exists_createdClass? hfound
  obtain ⟨described, hclass⟩ := Php.exists_classLine d.mainInstance_eq hfound
  refine ⟨d, bound, described, created, describingLine_infix_helperText _ _ _,
    by rw [hchanges, hbound], hcreated, hclass, ?_⟩
  rintro rfl hcode
  exact Option.some.inj ((hclass.class_of_code hcode).symm.trans hcreated)

/-- A small plugin in the directory `p` with a main file of this text. -/
def pluginReading (text : String) : Machine :=
  .ofTree <| .directory [("p", .directory [
    ("composer.json", .file ("\x7b\"require\":\x7b\"mehrshaddarzi/wp-trait\":1\x7d," ++
      "\"autoload\":\x7b\"psr-4\":\x7b\"P\":\"\"\x7d\x7d\x7d").toUTF8 0),
    ("p.php", .file text.toUTF8 0)])]

/-- The text of the main file, and the class that is read from it. -/
def mainReading (machine : Machine) : Option (String × String) :=
  match resolve "/p" machine with
  | .ok project _ =>
    match Files.readText project.mainFile machine with
    | .ok text _ => (Php.mainInstance project.mainFile text).toOption.map (text, ·)
    | .error _ _ => none
  | .error _ _ => none

theorem Describing.mainReading_eq (d : Describing "/p" machine machine') :
    mainReading machine = some (d.text, d.mainClass) := by
  unfold mainReading
  rw [d.resolve_eq]
  simp only [d.text_eq, d.mainInstance_eq, Except.toOption, Option.map_some]

/-- The lines that are reported as changed where the variable for the plugin object is added. -/
def changedLines (machine : Machine) : Option (List Nat) :=
  match add "/p" .ideHelper .skip machine with
  | .ok report _ => some (report.changes.map Php.LineChange.line)
  | .error _ _ => none

theorem exists_of_changedLines {numbers : List Nat} (h : changedLines machine = some numbers) :
    ∃ report machine', add "/p" .ideHelper .skip machine = .ok report machine' ∧
      report.changes.map Php.LineChange.line = numbers := by
  unfold changedLines at h
  split at h
  · next report machine' hadd => exact ⟨report, machine', hadd, Option.some.inj h⟩
  · cases h

/-- A main file that creates the plugin object and nothing else. -/
def onlyPlugin : String := "<?php
new Plugin();
"

/-- The class of the object is described. -/
theorem add_ideHelper_describes_onlyPlugin : ∃ report machine',
    add "/p" .ideHelper .skip (pluginReading onlyPlugin) = .ok report machine' ∧
      ∃ d : Describing "/p" (pluginReading onlyPlugin) machine',
        report.changes.map Php.LineChange.line = [2] ∧ d.mainClass = "Plugin" ∧
        Php.createdClass? (Php.SourceText.parse d.text).lines 1 = some d.mainClass.toList := by
  have hchanged : changedLines (pluginReading onlyPlugin) = some [2] := by decide +kernel
  have hreading : mainReading (pluginReading onlyPlugin) = some (onlyPlugin, "Plugin") := by
    decide +kernel
  have hstate : Php.stateBefore (Php.SourceText.parse onlyPlugin).lines 1 = .code := by
    decide +kernel
  have habove : ((Php.rows (Php.SourceText.parse onlyPlugin).lines)[0]?).map
      (fun row => (Text.dropBlanks row.code).head?) = some (some '<') := by
    decide +kernel
  obtain ⟨report, machine', hadd, hnumbers⟩ := exists_of_changedLines hchanged
  obtain ⟨d, bound, described, created, -, hchanges, hcreated, hclass, hsame⟩ :=
    add_ideHelper_describes hadd
  obtain ⟨htext, hname⟩ := Prod.mk.inj (Option.some.inj (hreading.symm.trans d.mainReading_eq))
  obtain rfl : bound = 1 := by simpa [hnumbers] using hchanges.symm
  rw [← htext] at hcreated hclass hsame
  have hdescribed : described = 1 := by
    refine hclass.eq_or_lt.resolve_right ?_
    rintro ⟨hlt, row, hrow, hhead⟩
    obtain rfl : described = 0 := by omega
    rw [hrow, Option.map_some, hhead] at habove
    cases habove
  exact ⟨report, machine', hadd, d, hnumbers, hname.symm,
    by rw [← htext, hsame hdescribed hstate, hcreated]⟩

/-- A main file that creates and assigns another object above the plugin object. -/
def loggingPlugin : String := "<?php
$logger = new Logger();
new Plugin();
"

/-- The class that is described need not be that of the object on the line of the assignment. -/
theorem not_describes_bound : ¬ ∀ (root : Path) (installer : Installer) (machine machine' : Machine)
    (report : ToggleReport), add root .ideHelper installer machine = .ok report machine' →
      ∀ (d : Describing root machine machine') (bound : Nat),
        report.changes.map Php.LineChange.line = [bound + 1] →
        Php.createdClass? (Php.SourceText.parse d.text).lines bound = some d.mainClass.toList := by
  intro h
  have hchanged : changedLines (pluginReading loggingPlugin) = some [3] := by decide +kernel
  have hreading : mainReading (pluginReading loggingPlugin) = some (loggingPlugin, "Logger") := by
    decide +kernel
  have hcreated : Php.createdClass? (Php.SourceText.parse loggingPlugin).lines 2 =
      some "Plugin".toList := by
    decide +kernel
  obtain ⟨report, machine', hadd, hnumbers⟩ := exists_of_changedLines hchanged
  obtain ⟨d, -, -⟩ := add_ideHelper_ok hadd
  obtain ⟨htext, hclass⟩ := Prod.mk.inj (Option.some.inj (hreading.symm.trans d.mainReading_eq))
  have hnames := h "/p" .skip _ machine' report hadd d 2 hnumbers
  rw [← htext, hcreated, ← hclass] at hnames
  exact absurd hnames (by decide)

end Project

end PluginWorkshop
