import PluginWorkshop.Php.Anchor
import PluginWorkshop.Php.Identifier

/-!
# The instantiation of the plugin

The main file of a plugin creates the plugin object outside all blocks, by a statement
`new Class(...)` that may be assigned to a variable. The tests of this module read such a statement
from the start of a line.
-/

namespace PluginWorkshop.Php

open Text

/-- What follows `new` and the blanks after it, of which there is one at least. -/
def operandOfNew? (s : List Char) : Option (List Char) :=
  match afterPrefix? "new".toList s with
  | some (c :: rest) => if isBlank c then some (dropBlanks rest) else none
  | _ => none

/-- The class name at the start of the text, with its namespace. -/
def className? (s : List Char) : Option (List Char) :=
  let (separator, name) := match s with
    | '\\' :: rest => (['\\'], rest)
    | rest => ([], rest)
  match name with
  | c :: _ =>
    if isIdentifierStart c then
      some (separator ++ name.takeWhile fun c => isIdentifierPart c || c == '\\')
    else none
  | [] => none

/-- What follows the blanks, the equals sign and the blanks of an assignment. -/
def assigned? (s : List Char) : Option (List Char) :=
  match dropBlanks s with
  | '=' :: rest => some (dropBlanks rest)
  | _ => none

/-- What is assigned to a variable at the start of the text, whatever the variable. -/
def assignedToAny? : List Char → Option (List Char)
  | '$' :: c :: rest =>
    if isIdentifierStart c then assigned? (rest.dropWhile isIdentifierPart) else none
  | _ => none

/-- What is assigned to the variable `$name` at the start of the text. -/
def assignedTo? (name s : List Char) : Option (List Char) :=
  (afterPrefix? ('$' :: name) s).bind assigned?

/-- A line that starts with `new` and a class name. -/
def instantiates (line : Line) : Bool :=
  ((operandOfNew? (dropBlanks line)).bind className?).isSome

/-- The class of the object that the line creates, and possibly assigns to a variable. -/
def instantiatedClass? (line : Line) : Option (List Char) :=
  let line := dropBlanks line
  let created := if line.head? = some '$' then assignedToAny? line else some line
  (created.bind operandOfNew?).bind className?

/-- What the variable `$name` is assigned on a line that starts, after its indentation, with the
assignment. -/
def boundValue? (name : List Char) (line : Line) : Option (List Char) :=
  assignedTo? name (afterIndentation line)

/-- A line that assigns a new object to the variable `$name`. -/
def bindsNew (name : List Char) (line : Line) : Bool :=
  ((boundValue? name line).bind operandOfNew?).isSome

/-- The name of the anchor at the instantiation in messages. -/
def instantiationLabel : String := "plugin instantiation"

/-- The first bare instantiation outside all blocks. -/
def bareInstantiation : Anchor := .marker instantiationLabel instantiates true

/-- The first instantiation outside all blocks, assigned or not. -/
def anyInstantiation : Anchor :=
  .marker instantiationLabel (fun line => (instantiatedClass? line).isSome) true

/-- The line outside all blocks on which the plugin object is assigned to the variable `$name`. -/
def findBinding? (lines : List Line) (name : String) : Option Nat :=
  match (Anchor.marker "binding" (bindsNew name.toList) true).locate lines with
  | .found line => some line
  | _ => none

/-- The class of the plugin object as the file at `path` names it. -/
def mainInstance (path : Path) (text : String) : Except PluginError String := do
  let lines := (SourceText.parse text).lines
  let line ← anyInstantiation.find path lines
  match lines[line]?.bind instantiatedClass? with
  | some name => return String.ofList name
  | none => throw (.anchorNotFound instantiationLabel path)

end PluginWorkshop.Php
