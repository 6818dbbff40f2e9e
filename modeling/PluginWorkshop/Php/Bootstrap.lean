import PluginWorkshop.Php.Instantiation

/-!
# Edits of a bootstrap file

`plan` computes what an edit makes of the text of a bootstrap file, and which lines it changes.
Every place of an edit is found before a line is moved, so that an edit is planned whole or not at
all. An edit that is already there changes nothing.
-/

namespace PluginWorkshop.Php

open Text

/-- An edit of a bootstrap file. -/
inductive BootstrapEdit where
  /-- Declares a property above the constructor and assigns it at the end of the initialization
  method. -/
  | wireClass (property statement : String)
  /-- Assigns the plugin object to the variable `$name`. -/
  | bindInstance (name : String)
  /-- Takes the assignment to the variable `$name` away again. -/
  | unbindInstance (name : String)
  deriving DecidableEq, Repr

inductive ChangeKind where
  | inserted
  | replaced
  deriving DecidableEq, Repr

namespace ChangeKind

def name : ChangeKind → String
  | inserted => "inserted"
  | replaced => "replaced"

end ChangeKind

/-- A line that an edit changes; `line` is its number in the edited file, counted from 1. -/
structure LineChange where
  line : Nat
  kind : ChangeKind
  text : String
  deriving DecidableEq, Repr

/-- The text that an edit makes, with the lines that it changes. -/
structure PatchOutcome where
  content : String
  changes : List LineChange
  deriving DecidableEq, Repr

namespace PatchOutcome

/-- The edit was there already. -/
def isUnchanged (outcome : PatchOutcome) : Bool := outcome.changes.isEmpty

end PatchOutcome

/-- A line to be inserted in front of the line at `index`. -/
structure Insertion where
  index : Nat
  line : Line
  deriving DecidableEq, Repr

/-- Inserts lines that are listed from the top of the file down. -/
def insertLines (source : SourceText) (insertions : List Insertion) : SourceText :=
  insertions.foldr (fun i source => source.insert i.index i.line) source

/-- The changes that inserting lines makes, where each insertion moves the later ones down. -/
def insertionChanges (insertions : List Insertion) : List LineChange :=
  insertions.zipIdx.map fun (i, earlier) =>
    ⟨i.index + earlier + 1, .inserted, String.ofList i.line⟩

/-- Some line reads `wanted` once it is trimmed. -/
def isPresent (wanted : Line) (lines : List Line) : Bool :=
  lines.any fun line => trim line == wanted

/-- The indentation of one level. -/
def indentUnit (closing : Line) : Line := if closing.contains '\t' then ['\t'] else "    ".toList

/-- The indentation of a new last statement in the block closed on line `closing`: that of the
statement before it, or one level in if the block is empty. -/
def bodyIndentation (lines : List Line) (closing : Nat) : Line :=
  let oneLevelIn :=
    let indent := indentation (lines[closing]?.getD [])
    indent ++ indentUnit indent
  match (lines.take closing).reverse.find? (!isAllBlank ·) with
  | some line =>
    if trim line = ['{'] ∨ containsText initializerMarker line then oneLevelIn
    else indentation line
  | none => oneLevelIn

/-- The lines that wiring a class inserts, from the top down. -/
def wiringInsertions (path : Path) (lines : List Line) (property statement : Line) :
    Except PluginError (List Insertion) := do
  let declareAt ← Anchor.beforeConstructor.find path lines
  let assignAt ← Anchor.endOfInitializer.find path lines
  let declaration :=
    if isPresent property lines then []
    else [⟨declareAt, indentation (lines[declareAt]?.getD []) ++ property⟩]
  let assignment :=
    if isPresent statement lines then []
    else [⟨assignAt, bodyIndentation lines assignAt ++ statement⟩]
  return if assignAt < declareAt then assignment ++ declaration else declaration ++ assignment

/-- The line with an assignment to the variable `$name` put after its indentation. -/
def bindLine (name line : Line) : Line :=
  indentation line ++ ('$' :: name) ++ " = ".toList ++ afterIndentation line

/-- The line without the assignment to the variable `$name` after its indentation. -/
def unbindLine (name line : Line) : Line :=
  match boundValue? name line with
  | some value => indentation line ++ value
  | none => line

/-- The outcome of replacing one line. -/
def replaceOutcome (source : SourceText) (index : Nat) (line : Line) : PatchOutcome where
  content := (source.replace index line).render
  changes := [⟨index + 1, .replaced, String.ofList line⟩]

/-- What the edit makes of the text of the file at `path`, which only messages mention. -/
def plan (path : Path) (text : String) (edit : BootstrapEdit) :
    Except PluginError PatchOutcome := do
  let source := SourceText.parse text
  match edit with
  | .wireClass property statement =>
    let insertions ← wiringInsertions path source.lines property.toList statement.toList
    return ⟨(insertLines source insertions).render, insertionChanges insertions⟩
  | .bindInstance name =>
    if (findBinding? source.lines name).isSome then
      return ⟨source.render, []⟩
    else
      let index ← bareInstantiation.find path source.lines
      return replaceOutcome source index
        (bindLine name.toList (source.lines[index]?.getD []))
  | .unbindInstance name =>
    match findBinding? source.lines name with
    | none => throw (.anchorNotFound ("$" ++ name ++ " binding") path)
    | some index =>
      return replaceOutcome source index
        (unbindLine name.toList (source.lines[index]?.getD []))

end PluginWorkshop.Php
