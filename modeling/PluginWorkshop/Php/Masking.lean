import PluginWorkshop.Php.Source

/-!
# Masking comments and strings

Markers and braces are looked for in a masked copy of a PHP file, in which comments and the
content of strings are blank. The masked copy has as many lines as the file, and each line as many
characters.

The lexer goes through a line character by character, with one character of lookahead (`step`);
its state goes on from line to line (`stateBefore`), so that strings and block comments may span
lines. `#[` opens an attribute and no comment. Heredocs are not recognised.
-/

namespace PluginWorkshop.Php

/-- What the lexer is in. -/
inductive LexState where
  | code
  | singleQuoted
  | doubleQuoted
  | blockComment
  deriving DecidableEq, Repr, Inhabited

/-- What the lexer does with the characters in front of it, and the state it goes on in. -/
inductive LexStep where
  /-- Keeps one character. -/
  | keep (next : LexState)
  /-- Blanks one character. -/
  | blank (next : LexState)
  /-- Blanks two characters. -/
  | blankPair (next : LexState)
  /-- Blanks the rest of the line, which is a line comment. -/
  | blankLine
  deriving DecidableEq, Repr

/-- A string literal with this delimiter, which a backslash keeps from being closed. -/
def stepQuoted (delimiter : Char) (inside : LexState) (c : Char) (next : Option Char) : LexStep :=
  if c = '\\' ∧ next.isSome then .blankPair inside
  else if c = delimiter then .keep .code
  else .blank inside

/-- The lexer at character `c`, with `next` after it on the line. -/
def step : LexState → Char → Option Char → LexStep
  | .code, c, next =>
    if c = '/' ∧ next = some '/' then .blankLine
    else if c = '#' ∧ next ≠ some '[' then .blankLine
    else if c = '/' ∧ next = some '*' then .blankPair .blockComment
    else if c = '\'' then .keep .singleQuoted
    else if c = '"' then .keep .doubleQuoted
    else .keep .code
  | .blockComment, c, next =>
    if c = '*' ∧ next = some '/' then .blankPair .code else .blank .blockComment
  | .singleQuoted, c, next => stepQuoted '\'' .singleQuoted c next
  | .doubleQuoted, c, next => stepQuoted '"' .doubleQuoted c next

/-- As many spaces as the line has characters. -/
def blanked (line : Line) : Line := line.map fun _ => ' '

/-- The masked copy of a line that starts in `state`, and the state after it. -/
def maskLine (state : LexState) : Line → Line × LexState
  | [] => ([], state)
  | c :: rest =>
    match step state c rest.head?, rest with
    | .keep next, rest =>
      let (masked, last) := maskLine next rest
      (c :: masked, last)
    | .blank next, rest =>
      let (masked, last) := maskLine next rest
      (' ' :: masked, last)
    | .blankPair next, _ :: rest =>
      let (masked, last) := maskLine next rest
      (' ' :: ' ' :: masked, last)
    | .blankPair next, [] => ([' '], next)
    | .blankLine, rest => (' ' :: blanked rest, .code)

/-- The masked copy of lines of which the first starts in `state`. -/
def maskFrom (state : LexState) : List Line → List Line
  | [] => []
  | line :: lines =>
    let (masked, next) := maskLine state line
    masked :: maskFrom next lines

/-- The masked copy of a file. -/
def mask (lines : List Line) : List Line := maskFrom .code lines

/-- The state of the lexer at the start of the line at `index`. -/
def stateBefore (lines : List Line) (index : Nat) : LexState :=
  (lines.take index).foldl (fun state line => (maskLine state line).2) .code

end PluginWorkshop.Php
