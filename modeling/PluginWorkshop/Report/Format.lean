import PluginWorkshop.Error
import PluginWorkshop.Json.Printer
import PluginWorkshop.Text.Ascii
import PluginWorkshop.Text.Split

/-!
# Output formats

A report is a JSON value. It is printed as JSON for tools, as one line `path: value` for every leaf
for scripts, or as an indented tree, possibly coloured, for people.
-/

namespace PluginWorkshop

open Text

inductive OutputFormat where
  | json
  | text
  | pretty
  deriving DecidableEq, Repr

namespace OutputFormat

def all : List OutputFormat := [json, text, pretty]

def name : OutputFormat → String
  | json => "json"
  | text => "text"
  | pretty => "pretty"

/-- The format used where none is asked for. -/
def standard : OutputFormat := pretty

/-- The format that a text names, in any case; no letter beyond ASCII has one of the letters of the
names as its lower case. -/
def parse (s : String) : Except PluginError OutputFormat :=
  match all.find? (·.name == lower s) with
  | some format => .ok format
  | none =>
    .error <| .invalidArgument <|
      "invalid output format: '" ++ s ++ "' (expected: json, text, or pretty)"

end OutputFormat

/-! ## Lines for scripts -/

namespace Report

/-- The path of a child. -/
def childPath (path key : String) : String := if path.isEmpty then key else path ++ "." ++ key

/-- The line of a leaf. -/
def leafLine (path text : String) : String := if path.isEmpty then text else path ++ ": " ++ text

mutual

/-- The lines of the leaves of a value; empty lists and objects are leaves. -/
def leafLines (path : String) : Json → List String
  | .object [] => [leafLine path "\x7b\x7d"]
  | .array [] => [leafLine path "[]"]
  | .object members => memberLines path members
  | .array items => itemLines path 0 items
  | .string text => [leafLine path text]
  | scalar => [leafLine path scalar.compact]

def memberLines (path : String) : List (String × Json) → List String
  | [] => []
  | (key, item) :: members => leafLines (childPath path key) item ++ memberLines path members

def itemLines (path : String) (index : Nat) : List Json → List String
  | [] => []
  | item :: items =>
    leafLines (childPath path (toString index)) item ++ itemLines path (index + 1) items

end

/-! ## A tree for people -/

/-- The colours of the tree. -/
inductive Colour where
  | key
  | faint
  | bool
  | number
  | string
  | status
  | notice
  | warning
  | error
  deriving DecidableEq, Repr

namespace Colour

/-- The parameters of the escape sequence that turns the colour on. -/
def parameters : Colour → String
  | key => "1;34"
  | faint => "2"
  | bool => "33"
  | number => "36"
  | string => "32"
  | status => "1;32"
  | notice => "33"
  | warning => "1;33"
  | error => "1;31"

/-- Turns the colour on. -/
def opening (colour : Colour) : List Char := "\x1b[".toList ++ colour.parameters.toList ++ ['m']

/-- Turns all colours off. -/
def closing : List Char := "\x1b[0m".toList

/-- The text with the colour turned on again wherever it turns colours off. -/
def reopened (colour : Colour) : List Char → List Char
  | '\x1b' :: '[' :: '0' :: 'm' :: rest => closing ++ colour.opening ++ colour.reopened rest
  | c :: rest => c :: colour.reopened rest
  | [] => []

/-- The text in the colour. -/
def paint (colour : Colour) (text : String) : String :=
  String.ofList (colour.opening ++ colour.reopened text.toList ++ closing)

end Colour

/-- The text, in a colour if colours are on. -/
def tint (coloured : Bool) (colour : Colour) (text : String) : String :=
  if coloured then colour.paint text else text

/-- A value on one line. -/
def inlineText (coloured : Bool) : Json → String
  | .null => tint coloured .faint "none"
  | .bool b => tint coloured .bool (if b then "true" else "false")
  | .number text => tint coloured .number text
  | .string text => tint coloured .string text
  | .array _ => "[]"
  | .object _ => "\x7b\x7d"

/-- The indentation of a level. -/
def levelIndent (depth : Nat) : String := String.ofList (List.replicate (2 * depth) ' ')

mutual

/-- The lines of a value under a label, at a level. -/
def entryLines (coloured : Bool) (depth : Nat) (label : String) : Json → List String
  | .object [] => [label ++ ": \x7b\x7d"]
  | .array [] => [label ++ ": []"]
  | .object members => (label ++ ":") :: memberEntries coloured (depth + 1) members
  | .array items => (label ++ ":") :: itemEntries coloured (depth + 1) items
  | scalar => [label ++ ": " ++ inlineText coloured scalar]

def memberEntries (coloured : Bool) (depth : Nat) : List (String × Json) → List String
  | [] => []
  | (key, item) :: members =>
    entryLines coloured depth (levelIndent depth ++ tint coloured .key key) item ++
      memberEntries coloured depth members

def itemEntries (coloured : Bool) (depth : Nat) : List Json → List String
  | [] => []
  | item :: items =>
    entryLines coloured depth (levelIndent depth ++ tint coloured .faint "-") item ++
      itemEntries coloured depth items

end

/-- The lines of the tree of a value. -/
def treeLines (coloured : Bool) : Json → List String
  | .object members => memberEntries coloured 0 members
  | .array items => itemEntries coloured 0 items
  | scalar => [inlineText coloured scalar]

/-! ## Reports -/

/-- The report in a format. -/
def render (format : OutputFormat) (coloured : Bool) (report : Json) : String :=
  match format with
  | .json => report.pretty "  "
  | .text => "\n".intercalate (leafLines "" report)
  | .pretty => "\n".intercalate (treeLines coloured report)

/-- What is printed for a report: for people, a line that says what was done comes first. -/
def printed (format : OutputFormat) (coloured : Bool) (message : String) (report : Json) : String :=
  let status := if format = .pretty then tint coloured .status "Success:" ++ " " ++ message ++ "\n"
    else ""
  status ++ render format coloured report ++ "\n"

end Report

end PluginWorkshop
