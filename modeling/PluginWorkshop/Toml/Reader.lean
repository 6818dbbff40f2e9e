import PluginWorkshop.Text.Ascii
import PluginWorkshop.Text.Split
import PluginWorkshop.Toml.Value

/-!
# Reading TOML

A reader takes the text that is left and gives a value with the text left after it, or nothing if
the text breaks the rules. `parse?` reads a whole document.

* Strings: four kinds, with escapes between double quotes and line breaks between triple quotes.
* Scalars: numbers, booleans and times are words of a fixed form.
* Arrays and tables between braces, nested to a limit.
* Lines: headers and entries.
-/

namespace PluginWorkshop.Toml

open Text

/-- Reads a value from the start of a text. -/
abbrev Reader (α : Type) := List Char → Option (α × List Char)

def isSpace (c : Char) : Bool := c == ' ' || c == '\t'

def skipSpace (s : List Char) : List Char := s.dropWhile isSpace

/-- Control characters, of which only the tab may stand in comments and strings. -/
def isControl (c : Char) : Bool := (c.toNat < 0x20 && c != '\t') || c.toNat == 0x7F

/-- The text without a line break at its start, if there is one. -/
def afterNewline? : List Char → Option (List Char)
  | '\n' :: rest => some rest
  | '\r' :: '\n' :: rest => some rest
  | _ => none

/-- The text after a comment and the white space before it. -/
def skipComment? (s : List Char) : Option (List Char) :=
  match skipSpace s with
  | '#' :: rest =>
    let (comment, rest) := (rest.takeWhile (fun c => c != '\n' && c != '\r'),
      rest.dropWhile (fun c => c != '\n' && c != '\r'))
    if comment.any isControl then none else some rest
  | rest => some rest

/-- The text after white space, comments and line breaks; the number bounds the lines. -/
def skipLinesUpTo : Nat → List Char → Option (List Char)
  | 0, _ => none
  | bound + 1, s => do
    let rest ← skipComment? s
    match afterNewline? rest with
    | some rest => skipLinesUpTo bound rest
    | none => return rest

def skipLines (s : List Char) : Option (List Char) := skipLinesUpTo (s.length + 1) s

/-! ## Strings -/

def hexDigit? (c : Char) : Option Nat :=
  if isDigit c then some (c.toNat - 48)
  else if 'a' ≤ c && c ≤ 'f' then some (c.toNat - 87)
  else if 'A' ≤ c && c ≤ 'F' then some (c.toNat - 55)
  else none

/-- The character whose number the hexadecimal digits write. -/
def charOfHex? (digits : List Char) : Option Char := do
  let n ← digits.foldlM (fun n c => (hexDigit? c).map (16 * n + ·)) 0
  if n.isValidChar then some (Char.ofNat n) else none

/-- The character that a letter stands for after a backslash. -/
def shortEscape? : Char → Option Char
  | 'b' => some '\x08'
  | 't' => some '\t'
  | 'n' => some '\n'
  | 'f' => some '\x0c'
  | 'r' => some '\r'
  | 'e' => some '\x1b'
  | '"' => some '"'
  | '\\' => some '\\'
  | _ => none

/-- How many hexadecimal digits follow a letter after a backslash. -/
def hexLength? : Char → Option Nat
  | 'x' => some 2
  | 'u' => some 4
  | 'U' => some 8
  | _ => none

/-- The character that an escape stands for, after its backslash. -/
def escape? : Reader Char
  | [] => none
  | e :: rest =>
    match shortEscape? e, hexLength? e with
    | some c, _ => some (c, rest)
    | none, some count =>
      if rest.length < count then none
      else (charOfHex? (rest.take count)).map (·, rest.drop count)
    | none, none => none

def consRead (c : Char) (read : Option (List Char × List Char)) :
    Option (List Char × List Char) :=
  read.map fun (text, rest) => (c :: text, rest)

/-- The rest of a string in double quotes; the number bounds the characters. -/
def basicUpTo : Nat → Reader (List Char)
  | 0, _ => none
  | _, [] => none
  | _ + 1, '"' :: rest => some ([], rest)
  | bound + 1, '\\' :: rest => do
    let (c, rest) ← escape? rest
    consRead c (basicUpTo bound rest)
  | bound + 1, c :: rest =>
    if isControl c then none else consRead c (basicUpTo bound rest)

/-- The rest of a string in single quotes. -/
def literal : Reader (List Char)
  | [] => none
  | '\'' :: rest => some ([], rest)
  | c :: rest => if isControl c then none else consRead c (literal rest)

/-- The text after a backslash at the end of a line: white space and line breaks are skipped, and
there is one line break at least. -/
def afterContinuation? (s : List Char) : Option (List Char) := do
  let rest ← afterNewline? (skipSpace s)
  return rest.dropWhile fun c => isSpace c || c == '\n' || c == '\r'

/-- The end of a string in triple quotes: up to two further quotes belong to the string. -/
def closingQuotes? (quote : Char) (s : List Char) : Option (List Char × List Char) :=
  let run := (s.takeWhile (· == quote)).length
  if run < 3 then none
  else
    let kept := min (run - 3) 2
    some (List.replicate kept quote, s.drop (kept + 3))

/-- The rest of a string in triple double quotes; the number bounds the characters. -/
def multilineBasicUpTo : Nat → Reader (List Char)
  | 0, _ => none
  | _, [] => none
  | bound + 1, '\\' :: rest =>
    match afterContinuation? rest with
    | some rest => multilineBasicUpTo bound rest
    | none => do
      let (c, rest) ← escape? rest
      consRead c (multilineBasicUpTo bound rest)
  | bound + 1, c :: rest =>
    match closingQuotes? '"' (c :: rest), afterNewline? (c :: rest) with
    | some closed, _ => some closed
    | none, some rest => consRead '\n' (multilineBasicUpTo bound rest)
    | none, none =>
      if isControl c then none else consRead c (multilineBasicUpTo bound rest)

/-- The rest of a string in triple single quotes; the number bounds the characters. -/
def multilineLiteralUpTo : Nat → Reader (List Char)
  | 0, _ => none
  | _, [] => none
  | bound + 1, c :: rest =>
    match closingQuotes? '\'' (c :: rest), afterNewline? (c :: rest) with
    | some closed, _ => some closed
    | none, some rest => consRead '\n' (multilineLiteralUpTo bound rest)
    | none, none =>
      if isControl c then none else consRead c (multilineLiteralUpTo bound rest)

/-- The text without one line break at its start. -/
def dropNewline (s : List Char) : List Char := (afterNewline? s).getD s

/-- A string on one line. -/
def lineString? : Reader String
  | '"' :: rest => (basicUpTo rest.length rest).map fun (text, rest) => (String.ofList text, rest)
  | '\'' :: rest => (literal rest).map fun (text, rest) => (String.ofList text, rest)
  | _ => none

/-- A string of any kind. -/
def string? : Reader String
  | '"' :: '"' :: '"' :: rest =>
    (multilineBasicUpTo rest.length (dropNewline rest)).map fun (text, rest) =>
      (String.ofList text, rest)
  | '\'' :: '\'' :: '\'' :: rest =>
    (multilineLiteralUpTo rest.length (dropNewline rest)).map fun (text, rest) =>
      (String.ofList text, rest)
  | s => lineString? s

/-! ## Keys -/

def isBareKeyChar (c : Char) : Bool := isLetterOrDigit c || c == '_' || c == '-'

/-- A key without dots. -/
def simpleKey? : Reader String
  | '"' :: rest => lineString? ('"' :: rest)
  | '\'' :: rest => lineString? ('\'' :: rest)
  | s =>
    match s.takeWhile isBareKeyChar with
    | [] => none
    | key => some (String.ofList key, s.dropWhile isBareKeyChar)

/-- Keys with dots between them; the number bounds the keys. -/
def keyUpTo : Nat → Reader (List String)
  | 0, _ => none
  | bound + 1, s => do
    let (first, rest) ← simpleKey? (skipSpace s)
    match skipSpace rest with
    | '.' :: rest =>
      let (others, rest) ← keyUpTo bound rest
      return (first :: others, rest)
    | rest => return ([first], rest)

def key? : Reader (List String) := fun s => keyUpTo (s.length + 1) s

/-! ## Scalars -/

/-- Digits with single underscores between them. -/
def isDigitRun (digit : Char → Bool) (s : List Char) : Bool :=
  (splitOn '_' s).all fun part => !part.isEmpty && part.all digit

/-- The text without a sign. -/
def withoutSign : List Char → List Char
  | '+' :: rest => rest
  | '-' :: rest => rest
  | s => s

/-- A decimal number without a fraction and without a leading zero. -/
def isDecimal (s : List Char) : Bool :=
  isDigitRun isDigit s && (s.length == 1 || s.head? != some '0')

def isHexDigit (c : Char) : Bool := (hexDigit? c).isSome

def isInteger : List Char → Bool
  | '0' :: 'x' :: rest => isDigitRun isHexDigit rest
  | '0' :: 'o' :: rest => isDigitRun (fun c => '0' ≤ c && c ≤ '7') rest
  | '0' :: 'b' :: rest => isDigitRun (fun c => c == '0' || c == '1') rest
  | s => isDecimal (withoutSign s)

/-- The parts before and after the first character that satisfies `p`. -/
def cutWhere (p : Char → Bool) (s : List Char) : List Char × Option (List Char) :=
  (s.takeWhile (!p ·), (s.dropWhile (!p ·)).tail?)

def isFloat (s : List Char) : Bool :=
  let s := withoutSign s
  if s = "inf".toList ∨ s = "nan".toList then true
  else
    let (mantissa, exponent) := cutWhere (fun c => c == 'e' || c == 'E') s
    let (whole, fraction) := cutWhere (· == '.') mantissa
    isDecimal whole && (fraction.map (isDigitRun isDigit)).getD true &&
      (exponent.map fun e => isDigitRun isDigit (withoutSign e)).getD true &&
      (fraction.isSome || exponent.isSome)

/-- The number that exactly so many digits write. -/
def fixedNumber? (count : Nat) (s : List Char) : Option Nat :=
  if s.length = count ∧ s.all isDigit then
    some (s.foldl (fun n c => 10 * n + (c.toNat - 48)) 0)
  else none

def isLeapYear (year : Nat) : Bool := year % 4 == 0 && (year % 100 != 0 || year % 400 == 0)

def daysInMonth (year month : Nat) : Nat :=
  if month = 2 then (if isLeapYear year then 29 else 28)
  else if month = 4 ∨ month = 6 ∨ month = 9 ∨ month = 11 then 30
  else 31

def isDate (s : List Char) : Bool :=
  match splitOn '-' s with
  | [year, month, day] =>
    match fixedNumber? 4 year, fixedNumber? 2 month, fixedNumber? 2 day with
    | some year, some month, some day =>
      1 ≤ month && month ≤ 12 && 1 ≤ day && day ≤ daysInMonth year month
    | _, _, _ => false
  | _ => false

def isBelow (limit : Nat) (n : Option Nat) : Bool := (n.map fun n => decide (n < limit)).getD false

def isTime (s : List Char) : Bool :=
  match splitOn ':' s with
  | [hour, minute] => isBelow 24 (fixedNumber? 2 hour) && isBelow 60 (fixedNumber? 2 minute)
  | [hour, minute, second] =>
    let (second, fraction) := cutWhere (· == '.') second
    isBelow 24 (fixedNumber? 2 hour) && isBelow 60 (fixedNumber? 2 minute) &&
      isBelow 61 (fixedNumber? 2 second) &&
      (fraction.map fun digits => !digits.isEmpty && digits.all isDigit).getD true
  | _ => false

/-- A time with an offset from universal time, or without one. -/
def isTimeWithOffset (s : List Char) : Bool :=
  match s.getLast? with
  | some 'Z' | some 'z' => isTime s.dropLast
  | _ =>
    let (time, offset) := cutWhere (fun c => c == '+' || c == '-') s
    match offset with
    | none => isTime time
    | some offset =>
      isTime time &&
        match splitOn ':' offset with
        | [hour, minute] => isBelow 24 (fixedNumber? 2 hour) && isBelow 60 (fixedNumber? 2 minute)
        | _ => false

def isDateTime (s : List Char) : Bool :=
  isDate s || isTime s ||
    (isDate (s.take 10) &&
      match s.drop 10 with
      | c :: time => (c == 'T' || c == 't' || c == ' ') && isTimeWithOffset time
      | [] => false)

def isScalar (s : List Char) : Bool :=
  s = "true".toList || s = "false".toList || isInteger s || isFloat s || isDateTime s

def isScalarChar (c : Char) : Bool :=
  isLetterOrDigit c || c == '_' || c == '-' || c == '+' || c == '.' || c == ':'

/-- A word, or a date and a time with one space between them. -/
def scalar? : Reader String := fun s =>
  let word := s.takeWhile isScalarChar
  let rest := s.dropWhile isScalarChar
  let (text, rest) :=
    match isDate word, rest with
    | true, ' ' :: c :: more =>
      if isDigit c then
        (word ++ ' ' :: (c :: more).takeWhile isScalarChar, (c :: more).dropWhile isScalarChar)
      else (word, rest)
    | _, _ => (word, rest)
  if isScalar text then some (String.ofList text, rest) else none

/-! ## Arrays, tables and values -/

/-- Items with commas between them, and possibly one after the last, up to and with the closing
bracket. The number bounds the items. -/
def itemsUpTo (close : Char) (item : Reader α) : Nat → Reader (List α)
  | 0, _ => none
  | bound + 1, s => do
    let rest ← skipLines s
    match rest with
    | [] => none
    | c :: rest =>
      if c = close then return ([], rest)
      else
        let (first, rest) ← item (c :: rest)
        match ← skipLines rest with
        | ',' :: rest =>
          let (others, rest) ← itemsUpTo close item bound rest
          return (first :: others, rest)
        | d :: rest => if d = close then return ([first], rest) else none
        | [] => none

/-- A key, an equals sign and a value. -/
def keyedValue? (value : Reader Value) : Reader (List String × Value) := fun s => do
  let (path, rest) ← key? s
  match rest with
  | '=' :: rest =>
    let (content, rest) ← value (skipSpace rest)
    return ((path, content), rest)
  | _ => none

/-- The table between braces with these entries, none of which repeats another. -/
def closedTable? (entries : List (List String × Value)) : Option Value :=
  (entries.foldlM (fun table (path, value) => Table.addEntry path value table) []).map
    (.table .closed ·)

/-- Any value, where arrays and tables hold what `nested` reads. -/
def valueWith (nested : Option (Reader Value)) : Reader Value := fun s =>
  match s with
  | '"' :: _ | '\'' :: _ => (string? s).map fun (text, rest) => (.string text, rest)
  | '[' :: rest => do
    let item ← nested
    let (items, rest) ← itemsUpTo ']' item (rest.length + 1) rest
    return (.array items, rest)
  | '\x7b' :: rest => do
    let item ← nested
    let (entries, rest) ← itemsUpTo '\x7d' (keyedValue? item) (rest.length + 1) rest
    let table ← closedTable? entries
    return (table, rest)
  | _ => (scalar? s).map fun (text, rest) => (.scalar text, rest)

/-- Any value with arrays and tables nested `depth` deep at most. -/
def value? : (depth : Nat) → Reader Value
  | 0 => valueWith none
  | depth + 1 => valueWith (some (value? depth))

/-- How deep arrays and tables may be nested. -/
def maxDepth : Nat := 80

/-! ## Lines -/

/-- A header or an entry. -/
def statement? : Reader Statement
  | '[' :: '[' :: rest => do
    let (path, rest) ← key? rest
    match rest with
    | ']' :: ']' :: rest => return (.tables path, rest)
    | _ => none
  | '[' :: rest => do
    let (path, rest) ← key? rest
    match rest with
    | ']' :: rest => return (.header path, rest)
    | _ => none
  | s => do
    let ((path, value), rest) ← keyedValue? (value? maxDepth) s
    return (.entry path value, rest)

/-- The lines that are not blank; the number bounds them. -/
def statementsUpTo : Nat → List Char → Option (List Statement)
  | 0, _ => none
  | bound + 1, s => do
    match ← skipLines s with
    | [] => return []
    | c :: rest =>
      let (first, rest) ← statement? (c :: rest)
      match ← skipComment? rest with
      | [] => return [first]
      | rest =>
        let rest ← afterNewline? rest
        let others ← statementsUpTo bound rest
        return first :: others

/-- The text without a byte order mark at its start. -/
def withoutMark : List Char → List Char
  | '\uFEFF' :: rest => rest
  | s => s

/-- The document that a text writes. -/
def parse? (text : String) : Option Table := do
  let s := withoutMark text.toList
  ofStatements? (← statementsUpTo (s.length + 1) s)

end PluginWorkshop.Toml
