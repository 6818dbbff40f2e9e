import PluginWorkshop.Error
import PluginWorkshop.Json.Printer
import PluginWorkshop.Text.Blank
import PluginWorkshop.Text.Split

/-!
# Templates

A template is text with slots. Rendering replaces each slot once by the value of its variable, as
it stands; a variable without a value leaves nothing. A template is written with slots between
double or triple braces (`Template.parse?`).
-/

namespace PluginWorkshop

open Text

/-- A part of a template. -/
inductive Piece where
  | text (text : String)
  /-- The place of the value of a variable. -/
  | slot (name : String)
  deriving DecidableEq, Repr

instance : Coe String Piece := ⟨.text⟩

/-- Values of variables. -/
structure TemplateVars where
  values : List (String × String)
  deriving DecidableEq, Repr

namespace TemplateVars

def empty : TemplateVars := ⟨[]⟩

def get? (vars : TemplateVars) (name : String) : Option String := vars.values.lookup name

/-- Sets a variable to a value, in place of the value it had. -/
def set (vars : TemplateVars) (name value : String) : TemplateVars :=
  ⟨(name, value) :: vars.values.filter (·.1 != name)⟩

/-- Sets a variable whose slot stands inside a JSON string: the value is escaped. -/
def setJson (vars : TemplateVars) (name value : String) : TemplateVars :=
  vars.set name (String.ofList (Json.escape value.toList))

theorem get?_set (vars : TemplateVars) (name value : String) :
    (vars.set name value).get? name = some value := by
  simp [set, get?]

end TemplateVars

/-- Text with slots. -/
structure Template where
  pieces : List Piece
  deriving DecidableEq, Repr

namespace Template

/-- The template whose lines are these, each with a line feed at its end. -/
def ofLines (lines : List (List Piece)) : Template :=
  ⟨lines.flatMap fun line => line ++ [.text "\n"]⟩

/-- What a piece becomes. -/
def renderPiece (vars : TemplateVars) : Piece → String
  | .text text => text
  | .slot name => (vars.get? name).getD ""

/-- The text with every slot filled. -/
def render (template : Template) (vars : TemplateVars) : String :=
  String.join (template.pieces.map (renderPiece vars))

theorem toList_render (template : Template) (vars : TemplateVars) :
    (template.render vars).toList =
      template.pieces.flatMap fun piece => (renderPiece vars piece).toList := by
  rw [render, String.toList_join, List.flatMap_map]

/-! ## Written templates -/

/-- The texts between the double opening braces. -/
def splitTags : List Char → List (List Char)
  | '\x7b' :: '\x7b' :: rest => [] :: splitTags rest
  | c :: rest =>
    match splitTags rest with
    | [] => [[c]]
    | piece :: pieces => (c :: piece) :: pieces
  | [] => [[]]

/-- The texts before and after the first occurrence of `pattern`. -/
def cutAt? (pattern s : List Char) : Option (List Char × List Char) :=
  (suffixFrom? pattern s).map fun suffix =>
    (s.take (s.length - suffix.length), suffix.drop pattern.length)

def isSlotNameChar (c : Char) : Bool :=
  !isBlank c && !"!\"#%&'()*+,;<=>@[\\]^`\x7b|\x7d~".toList.contains c

/-- The slot with the name that stands between its braces, blanks around it apart. -/
def slot? (name : List Char) : Option Piece :=
  let name := trim name
  if !name.isEmpty && name.all isSlotNameChar then some (.slot (String.ofList name)) else none

/-- The slot at the start of a text that follows double opening braces, and the text after it. -/
def tagPieces? (s : List Char) : Option (List Piece) := do
  let (name, after) ← match s with
    | '\x7b' :: name => cutAt? "\x7d\x7d\x7d".toList name
    | name => cutAt? "\x7d\x7d".toList name
  return [← slot? name, .text (String.ofList after)]

/-- The template that a text writes; none if a slot is not closed or has no name. -/
def parse? (text : String) : Option Template :=
  match splitTags text.toList with
  | [] => some ⟨[]⟩
  | start :: tags => do
    let pieces ← tags.mapM tagPieces?
    return ⟨.text (String.ofList start) :: pieces.flatten⟩

end Template

/-- Templates under their names. -/
structure TemplateEngine where
  templates : List (String × Template)

namespace TemplateEngine

/-- Adds a written template, in place of the one of that name. -/
def register (engine : TemplateEngine) (name text : String) :
    Except PluginError TemplateEngine :=
  match Template.parse? text with
  | some template => .ok ⟨(name, template) :: engine.templates⟩
  | none => .error (.templateFailed name "registration failed: a slot is not closed")

/-- Renders the template of that name. -/
def render (engine : TemplateEngine) (name : String) (vars : TemplateVars) :
    Except PluginError String :=
  match engine.templates.lookup name with
  | some template => .ok (template.render vars)
  | none => .error (.templateFailed name "no such template")

end TemplateEngine

end PluginWorkshop
