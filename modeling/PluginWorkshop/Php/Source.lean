import PluginWorkshop.Text.Blank
import PluginWorkshop.Text.Split

/-!
# Lines of a source file

`SourceText.parse` cuts a file into lines and remembers its line ending and whether it ended with
a newline; `SourceText.render` puts the lines together again with that line ending. A file whose
line feeds all have the same ending comes back as it was.
-/

namespace PluginWorkshop.Php

open Text

/-- A line without its terminator. -/
abbrev Line := List Char

/-- The terminator of the lines of a file. -/
inductive LineEnding where
  | lf
  | crlf
  deriving DecidableEq, Repr, Inhabited

namespace LineEnding

def chars : LineEnding → List Char
  | lf => ['\n']
  | crlf => ['\r', '\n']

/-- One carriage return before a line feed makes the file a CRLF file. -/
def detect (text : List Char) : LineEnding :=
  if containsText ['\r', '\n'] text then crlf else lf

end LineEnding

/-- The line without one carriage return at its end. -/
def dropReturn (line : Line) : Line :=
  if line.getLast? = some '\r' then line.dropLast else line

def endsWithNewline (text : List Char) : Bool := text.getLast? == some '\n'

/-- The lines of a file, to be edited. -/
structure SourceText where
  lines : List Line
  lineEnding : LineEnding
  /-- The file ends with a line terminator. -/
  trailingNewline : Bool
  deriving DecidableEq, Repr, Inhabited

namespace SourceText

/-- The lines of a text: cut at line feeds, each without a carriage return before its line feed.
What follows the last line feed is a line unless it is empty. -/
def linesOf (text : List Char) : List Line :=
  let pieces := splitOn '\n' text
  let kept := if text.isEmpty || endsWithNewline text then pieces.dropLast else pieces
  kept.map dropReturn

def parse (text : String) : SourceText where
  lines := linesOf text.toList
  lineEnding := .detect text.toList
  trailingNewline := endsWithNewline text.toList

def renderChars (s : SourceText) : List Char :=
  join s.lineEnding.chars s.lines ++ if s.trailingNewline then s.lineEnding.chars else []

/-- The lines as the text of a file. -/
def render (s : SourceText) : String := String.ofList s.renderChars

/-- Inserts a line in front of the line at `index`. -/
def insert (s : SourceText) (index : Nat) (line : Line) : SourceText :=
  { s with lines := s.lines.insertIdx index line }

/-- Replaces the line at `index`. -/
def replace (s : SourceText) (index : Nat) (line : Line) : SourceText :=
  { s with lines := s.lines.set index line }

end SourceText

end PluginWorkshop.Php
