import PluginWorkshop.Json.Value

/-!
# Printing JSON

`compact` prints a value without any white space, `pretty` prints each item and each member on a
line of its own. In strings the quote, the backslash and the characters below the space are
escaped, and nothing else.
-/

namespace PluginWorkshop.Json

/-- The lower-case hexadecimal digit of a number below 16. -/
def hexDigit (n : Nat) : Char := if n < 10 then Char.ofNat (48 + n) else Char.ofNat (87 + n)

/-- A character as it stands in a string. -/
def escapeChar (c : Char) : List Char :=
  if c = '"' then ['\\', '"']
  else if c = '\\' then ['\\', '\\']
  else if c.toNat < 0x20 then
    if c = '\x08' then ['\\', 'b']
    else if c = '\t' then ['\\', 't']
    else if c = '\n' then ['\\', 'n']
    else if c = '\x0c' then ['\\', 'f']
    else if c = '\r' then ['\\', 'r']
    else ['\\', 'u', '0', '0', hexDigit (c.toNat / 16), hexDigit (c.toNat % 16)]
  else [c]

/-- The content of a string, escaped, without its quotes. -/
def escape (s : List Char) : List Char := s.flatMap escapeChar

def quote (s : String) : List Char := '"' :: escape s.toList ++ ['"']

/-- Lists of printed items with commas between neighbours. -/
def commaSeparated : List (List Char) → List Char
  | [] => []
  | [item] => item
  | item :: next :: items => item ++ ',' :: commaSeparated (next :: items)

mutual

/-- The value without white space. -/
def compactChars : Json → List Char
  | null => "null".toList
  | bool b => (if b then "true" else "false").toList
  | number text => text.toList
  | string text => quote text
  | array items => '[' :: commaSeparated (compactItems items) ++ [']']
  | object members => '\x7b' :: commaSeparated (compactMembers members) ++ ['\x7d']

def compactItems : List Json → List (List Char)
  | [] => []
  | item :: items => compactChars item :: compactItems items

def compactMembers : List (String × Json) → List (List Char)
  | [] => []
  | (key, item) :: members => (quote key ++ ':' :: compactChars item) :: compactMembers members

end

/-- The value on one line, without white space. -/
def compact (json : Json) : String := String.ofList (compactChars json)

/-- Items on lines of their own, each after `margin` and one `unit` more, between brackets. -/
def block (margin unit : List Char) (opening closing : Char) (items : List (List Char)) :
    List Char :=
  match items with
  | [] => [opening, closing]
  | items =>
    opening :: commaSeparated (items.map fun item => '\n' :: margin ++ unit ++ item) ++
      '\n' :: margin ++ [closing]

mutual

/-- The value on several lines; `margin` stands in front of every line but the first, and `unit`
indents by one level. -/
def prettyChars (margin unit : List Char) : Json → List Char
  | null => "null".toList
  | bool b => (if b then "true" else "false").toList
  | number text => text.toList
  | string text => quote text
  | array items => block margin unit '[' ']' (prettyItems (margin ++ unit) unit items)
  | object members =>
    block margin unit '\x7b' '\x7d' (prettyMembers (margin ++ unit) unit members)

def prettyItems (margin unit : List Char) : List Json → List (List Char)
  | [] => []
  | item :: items => prettyChars margin unit item :: prettyItems margin unit items

def prettyMembers (margin unit : List Char) : List (String × Json) → List (List Char)
  | [] => []
  | (key, item) :: members =>
    (quote key ++ ':' :: ' ' :: prettyChars margin unit item) :: prettyMembers margin unit members

end

/-- The value on several lines, indented by `unit`. -/
def pretty (unit : String) (json : Json) : String :=
  String.ofList (prettyChars [] unit.toList json)

end PluginWorkshop.Json
