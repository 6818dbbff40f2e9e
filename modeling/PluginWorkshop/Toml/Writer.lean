import PluginWorkshop.Text.Split

/-!
# Writing TOML

Sections of texts and of lists of texts. A text is written in the first of these forms that can
hold it: double quotes, single quotes, three double quotes, three single quotes, and with escapes.
-/

namespace PluginWorkshop.Toml

open Text

/-- Control characters other than the tab and the line feed. -/
def isUnprintable (c : Char) : Bool :=
  (c.toNat < 0x20 && c != '\t' && c != '\n') || c.toNat == 0x7F

def upperHexDigit (n : Nat) : Char := if n < 10 then Char.ofNat (48 + n) else Char.ofNat (55 + n)

/-- A character with the escape it has between double quotes, if it has one. -/
def escapeChar (c : Char) : List Char :=
  if c = '\\' then ['\\', '\\']
  else if c = '"' then ['\\', '"']
  else if c = '\x08' then ['\\', 'b']
  else if c = '\t' then ['\\', 't']
  else if c = '\n' then ['\\', 'n']
  else if c = '\x0c' then ['\\', 'f']
  else if c = '\r' then ['\\', 'r']
  else if c.toNat < 0x20 ∨ c.toNat = 0x7F then
    ['\\', 'u', '0', '0', upperHexDigit (c.toNat / 16), upperHexDigit (c.toNat % 16)]
  else [c]

/-- The text between three double quotes: line feeds stand for themselves, and of a run of quotes
every third is escaped. `run` counts the quotes just written. -/
def escapeLines (run : Nat) : List Char → List Char
  | [] => []
  | c :: rest =>
    if c = '"' then
      if run = 2 then '\\' :: '"' :: escapeLines 0 rest else '"' :: escapeLines (run + 1) rest
    else if c = '\n' then '\n' :: escapeLines 0 rest
    else escapeChar c ++ escapeLines 0 rest

/-- The text between delimiters, after a line feed if it has several lines. -/
def between (delimiter text : List Char) (lines : Bool) : List Char :=
  delimiter ++ (if lines then ['\n'] else []) ++ text ++ delimiter

/-- The text as a TOML string. -/
def stringChars (text : List Char) : List Char :=
  let lines := text.contains '\n'
  let printable := !text.any isUnprintable
  if !text.contains '"' && !text.contains '\\' && !lines && printable then
    between ['"'] (text.flatMap escapeChar) false
  else if !text.contains '\'' && !lines && printable then between ['\''] text false
  else if !text.contains '\\' && printable && !containsText ['"', '"', '"'] text then
    between ['"', '"', '"'] (escapeLines 0 text) lines
  else if printable && !containsText ['\'', '\'', '\''] text then
    between ['\'', '\'', '\''] text lines
  else if lines then between ['"', '"', '"'] (escapeLines 0 text) true
  else between ['"'] (text.flatMap escapeChar) false

/-- A value in a section. -/
inductive Item where
  | text (text : String)
  | texts (texts : List String)
  deriving DecidableEq, Repr

/-- The value; a list of more than one item has each item on a line of its own. -/
def itemChars : Item → List Char
  | .text text => stringChars text.toList
  | .texts [] => ['[', ']']
  | .texts [text] => '[' :: stringChars text.toList ++ [']']
  | .texts texts =>
    "[\n".toList ++
      texts.flatMap (fun text => "    ".toList ++ stringChars text.toList ++ ",\n".toList) ++ [']']

/-- A section: its name and its entries. -/
structure Section where
  name : String
  entries : List (String × Item)
  deriving DecidableEq, Repr

def sectionChars (s : Section) : List Char :=
  '[' :: s.name.toList ++ "]\n".toList ++
    s.entries.flatMap fun (key, item) =>
      key.toList ++ " = ".toList ++ itemChars item ++ ['\n']

/-- The sections with blank lines between them. -/
def render (sections : List Section) : String :=
  String.ofList (join ['\n'] (sections.map sectionChars))

end PluginWorkshop.Toml
