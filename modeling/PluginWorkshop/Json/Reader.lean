import PluginWorkshop.Json.Value
import PluginWorkshop.Text.Ascii

/-!
# Reading JSON

A reader takes the text that is left and gives a value with the text left after it, or a flaw: the
reason why the text is no JSON, and the text that was left when that was seen. Where it is in the
whole text is worked out at the end (`Flaw.position`), so that the readers know nothing of lines
and columns.

* `stringBody`, `numberText`: the scalars.
* `sequence`: items between brackets, in lists and in objects.
* `value`: any value, with a bound on the nesting of lists and objects.
* `parse`: a whole text.
-/

namespace PluginWorkshop.Json

open Text

/-- Why a text is no JSON. -/
inductive Reason where
  | eofInList
  | eofInObject
  | eofInString
  | eofInValue
  | expectedColon
  | expectedListEnd
  | expectedObjectEnd
  | expectedIdent
  | expectedValue
  | invalidEscape
  | invalidNumber
  | controlCharacter
  | keyNotString
  | loneSurrogate
  | trailingComma
  | trailingCharacters
  | shortSurrogatePair
  | nestedTooDeep
  deriving DecidableEq, Repr

namespace Reason

def message : Reason → String
  | eofInList => "EOF while parsing a list"
  | eofInObject => "EOF while parsing an object"
  | eofInString => "EOF while parsing a string"
  | eofInValue => "EOF while parsing a value"
  | expectedColon => "expected `:`"
  | expectedListEnd => "expected `,` or `]`"
  | expectedObjectEnd => "expected `,` or `\x7d`"
  | expectedIdent => "expected ident"
  | expectedValue => "expected value"
  | invalidEscape => "invalid escape"
  | invalidNumber => "invalid number"
  | controlCharacter => "control character (\\u0000-\\u001F) found while parsing a string"
  | keyNotString => "key must be a string"
  | loneSurrogate => "lone leading surrogate in hex escape"
  | trailingComma => "trailing comma"
  | trailingCharacters => "trailing characters"
  | shortSurrogatePair => "unexpected end of hex escape"
  | nestedTooDeep => "recursion limit exceeded"

end Reason

/-- A reason with the text that was left, of which `ahead` bytes had been looked at. -/
structure Flaw where
  reason : Reason
  rest : List Char
  ahead : Nat
  deriving DecidableEq, Repr

/-- A flaw seen at the end of what has been read. -/
def flawAt (reason : Reason) (rest : List Char) : Flaw := ⟨reason, rest, 0⟩

/-- A flaw seen by a look at the next byte. -/
def flawAfter (reason : Reason) (rest : List Char) : Flaw := ⟨reason, rest, 1⟩

/-- Reads a value from the start of a text. -/
abbrev Reader (α : Type) := List Char → Except Flaw (α × List Char)

def isSpace (c : Char) : Bool := c == ' ' || c == '\n' || c == '\t' || c == '\r'

def skipSpace (s : List Char) : List Char := s.dropWhile isSpace

/-! ## Strings -/

def hexDigit? (c : Char) : Option Nat :=
  if isDigit c then some (c.toNat - '0'.toNat)
  else if 'a' ≤ c && c ≤ 'f' then some (c.toNat - 'a'.toNat + 10)
  else if 'A' ≤ c && c ≤ 'F' then some (c.toNat - 'A'.toNat + 10)
  else none

/-- The number that four hexadecimal digits write. -/
def hexNumber? (a b c d : Char) : Option Nat := do
  return (((← hexDigit? a) * 16 + (← hexDigit? b)) * 16 + (← hexDigit? c)) * 16 + (← hexDigit? d)

def byteCount (s : List Char) : Nat := (String.ofList s).utf8ByteSize

/-- The four bytes in front are no hexadecimal digits, or there are fewer. -/
def hexFlaw (digits : List Char) : Flaw :=
  if 4 ≤ byteCount (digits.take 4) then ⟨.invalidEscape, digits, 4⟩ else flawAt .eofInString []

def isLeadingSurrogate (n : Nat) : Bool := 0xD800 ≤ n && n ≤ 0xDBFF

def isTrailingSurrogate (n : Nat) : Bool := 0xDC00 ≤ n && n ≤ 0xDFFF

/-- The character that a pair of surrogates stands for. -/
def pairedChar (leading trailing : Nat) : Char :=
  Char.ofNat ((leading - 0xD800) * 0x400 + (trailing - 0xDC00) + 0x10000)

/-- The character that a backslash and one more character stand for. -/
def shortEscape? : Char → Option Char
  | '"' => some '"'
  | '\\' => some '\\'
  | '/' => some '/'
  | 'b' => some '\x08'
  | 'f' => some '\x0c'
  | 'n' => some '\n'
  | 'r' => some '\r'
  | 't' => some '\t'
  | _ => none

/-- Puts a character in front of what a reader has read. -/
def consRead (c : Char) (read : Except Flaw (List Char × List Char)) :
    Except Flaw (List Char × List Char) :=
  read.map fun (text, rest) => (c :: text, rest)

/-- The rest of a string, after its opening quote, up to and with its closing quote. -/
def stringBody : Reader (List Char)
  | [] => .error (flawAt .eofInString [])
  | '"' :: rest => .ok ([], rest)
  | '\\' :: [] => .error (flawAt .eofInString [])
  | '\\' :: 'u' :: a :: b :: c :: d :: rest =>
    match hexNumber? a b c d with
    | none => .error (hexFlaw (a :: b :: c :: d :: rest))
    | some n =>
      if isTrailingSurrogate n then .error (flawAt .loneSurrogate rest)
      else if isLeadingSurrogate n then
        match rest with
        | '\\' :: 'u' :: e :: f :: g :: h :: after =>
          match hexNumber? e f g h with
          | none => .error (hexFlaw (e :: f :: g :: h :: after))
          | some m =>
            if isTrailingSurrogate m then consRead (pairedChar n m) (stringBody after)
            else .error (flawAt .loneSurrogate after)
        | '\\' :: 'u' :: digits => .error (hexFlaw digits)
        | '\\' :: [] | [] => .error (flawAt .eofInString [])
        | '\\' :: other => .error (flawAfter .shortSurrogatePair other)
        | other => .error (flawAfter .shortSurrogatePair other)
      else consRead (Char.ofNat n) (stringBody rest)
  | '\\' :: 'u' :: digits => .error (hexFlaw digits)
  | '\\' :: e :: rest =>
    match shortEscape? e with
    | some c => consRead c (stringBody rest)
    | none => .error (flawAfter .invalidEscape (e :: rest))
  | c :: rest =>
    if c.toNat < 0x20 then .error (flawAt .controlCharacter rest)
    else consRead c (stringBody rest)

/-- The rest of a string whose content does not matter: a surrogate may stand alone. -/
def skippedString : Reader Unit
  | [] => .error (flawAt .eofInString [])
  | '"' :: rest => .ok ((), rest)
  | '\\' :: [] => .error (flawAt .eofInString [])
  | '\\' :: 'u' :: a :: b :: c :: d :: rest =>
    if (hexNumber? a b c d).isSome then skippedString rest
    else .error (hexFlaw (a :: b :: c :: d :: rest))
  | '\\' :: 'u' :: digits => .error (hexFlaw digits)
  | '\\' :: e :: rest =>
    if (shortEscape? e).isSome then skippedString rest
    else .error (flawAfter .invalidEscape (e :: rest))
  | c :: rest =>
    if c.toNat < 0x20 then .error (flawAt .controlCharacter rest) else skippedString rest

/-! ## Numbers -/

/-- The digits at the start of the text, of which there is one at least. -/
def someDigits (eof : Flaw) (other : Flaw) : Reader (List Char) := fun s =>
  match s.takeWhile isDigit with
  | [] => .error (if s.isEmpty then eof else other)
  | digits => .ok (digits, s.dropWhile isDigit)

/-- The integer part of a number; a leading zero stands alone. -/
def integerPart : Reader (List Char) := fun s =>
  match s with
  | '0' :: rest =>
    if (rest.head?.map isDigit).getD false then .error (flawAfter .invalidNumber rest)
    else .ok (['0'], rest)
  | s => someDigits (flawAt .eofInValue s) (flawAfter .invalidNumber s) s

/-- The fraction of a number, if there is one. -/
def fractionPart : Reader (List Char)
  | '.' :: rest => do
    let (digits, rest) ←
      someDigits (flawAfter .eofInValue rest) (flawAfter .invalidNumber rest) rest
    return ('.' :: digits, rest)
  | s => .ok ([], s)

/-- The sign of an exponent, which is a plus where none is written, and the text after it. -/
def exponentSign : List Char → Char × List Char
  | '+' :: rest => ('+', rest)
  | '-' :: rest => ('-', rest)
  | rest => ('+', rest)

/-- The exponent of a number, if there is one, written with a small `e` and a sign. -/
def exponentPart (s : List Char) : Except Flaw (List Char × List Char) :=
  match s with
  | e :: rest =>
    if e = 'e' ∨ e = 'E' then do
      let (sign, rest) := exponentSign rest
      let (digits, rest) ←
        someDigits (flawAt .eofInValue rest) (flawAfter .invalidNumber rest) rest
      return ('e' :: sign :: digits, rest)
    else .ok ([], s)
  | [] => .ok ([], s)

/-- A number without its sign. -/
def unsignedNumber : Reader (List Char) := fun s => do
  let (integer, rest) ← integerPart s
  let (fraction, rest) ← fractionPart rest
  let (exponent, rest) ← exponentPart rest
  return (integer ++ fraction ++ exponent, rest)

/-- The text of a number: its digits as they stand, and its exponent in one form. -/
def numberText : Reader (List Char)
  | '-' :: rest => do
    let (text, rest) ← unsignedNumber rest
    return ('-' :: text, rest)
  | s => unsignedNumber s

/-! ## Lists, objects and values -/

/-- The rest of a word that stands for a value. -/
def word (value : α) : List Char → List Char → Except Flaw (α × List Char)
  | [], rest => .ok (value, rest)
  | _ :: _, [] => .error (flawAt .eofInValue [])
  | e :: expected, c :: rest =>
    if c = e then word value expected rest else .error (flawAfter .expectedIdent (c :: rest))

/-- The closing bracket of a sequence and the reasons that name the sequence. -/
structure Bracket where
  close : Char
  eof : Reason
  expectedEnd : Reason

def Bracket.list : Bracket := ⟨']', .eofInList, .expectedListEnd⟩

def Bracket.object : Bracket := ⟨'\x7d', .eofInObject, .expectedObjectEnd⟩

/-- Items separated by commas, at least one, up to and with the closing bracket. The number bounds
the items; a text has no more of them than characters. -/
def itemsUpTo (bracket : Bracket) (item : Reader α) : Nat → Reader (List α)
  | 0, s => .error (flawAt bracket.eof s)
  | bound + 1, s => do
    let (first, rest) ← item s
    match skipSpace rest with
    | [] => .error (flawAfter bracket.eof [])
    | c :: rest =>
      if c = bracket.close then return ([first], rest)
      else if c = ',' then
        match skipSpace rest with
        | [] => .error (flawAfter .eofInValue [])
        | d :: rest =>
          if d = bracket.close then .error (flawAfter .trailingComma (d :: rest))
          else
            let (others, rest) ← itemsUpTo bracket item bound (d :: rest)
            return (first :: others, rest)
      else .error (flawAfter bracket.expectedEnd (c :: rest))

/-- The items of a sequence, after its opening bracket. -/
def sequence (bracket : Bracket) (item : Reader α) : Reader (List α) := fun s =>
  match skipSpace s with
  | [] => .error (flawAfter bracket.eof [])
  | c :: rest =>
    if c = bracket.close then .ok ([], rest)
    else itemsUpTo bracket item s.length (c :: rest)

/-- A member of an object: a key, a colon and the value that belongs under the key. -/
def member (key : Reader κ) (item : κ → Reader α) : Reader (κ × α)
  | '"' :: rest => do
    let (name, rest) ← key rest
    match skipSpace rest with
    | [] => .error (flawAfter .eofInObject [])
    | ':' :: rest =>
      let (content, rest) ← item name (skipSpace rest)
      return ((name, content), rest)
    | rest => .error (flawAfter .expectedColon rest)
  | s => .error (flawAfter .keyNotString s)

/-- The rest of a string, as text. -/
def stringText : Reader String := fun s =>
  (stringBody s).map fun (text, rest) => (String.ofList text, rest)

/-- The rest of a string whose content does not matter. -/
def skippedText : Reader String := fun s => (skippedString s).map fun (_, rest) => ("", rest)

/-- Any value, where `text` reads the strings and lists and objects hold what `nested` reads;
without it they are too deep. -/
def valueWith (text : Reader String) (nested : Option (Reader Json)) : Reader Json := fun s =>
  match skipSpace s with
  | [] => .error (flawAfter .eofInValue [])
  | 'n' :: rest => word .null "ull".toList rest
  | 't' :: rest => word (.bool true) "rue".toList rest
  | 'f' :: rest => word (.bool false) "alse".toList rest
  | '"' :: rest => (text rest).map fun (text, rest) => (.string text, rest)
  | c :: rest =>
    if c = '-' ∨ isDigit c then
      (numberText (c :: rest)).map fun (text, rest) => (.number (String.ofList text), rest)
    else if c = '[' then
      match nested with
      | none => .error (flawAfter .nestedTooDeep (c :: rest))
      | some item => (sequence .list item rest).map fun (items, rest) => (.array items, rest)
    else if c = '\x7b' then
      match nested with
      | none => .error (flawAfter .nestedTooDeep (c :: rest))
      | some item =>
        (sequence .object (member text fun _ => item) rest).map fun (members, rest) =>
          (.object (Members.ofList members), rest)
    else .error (flawAfter .expectedValue (c :: rest))

/-- Any value in which lists and objects are nested `depth` deep at most, with strings read by
`text`. -/
def valueOf (text : Reader String) : (depth : Nat) → Reader Json
  | 0 => valueWith text none
  | depth + 1 => valueWith text (some (valueOf text depth))

/-- Any value in which lists and objects are nested `depth` deep at most. -/
def value (depth : Nat) : Reader Json := valueOf stringText depth

/-- A value that does not matter, nested as deep as the text allows. -/
def skippedValue : Reader Unit := fun s =>
  (valueOf skippedText s.length s).map fun (_, rest) => ((), rest)

/-- How deep lists and objects may be nested. -/
def maxDepth : Nat := 127

/-- A reader's value of a whole text: nothing but white space follows it. -/
def wholeText (read : Reader α) (text : List Char) : Except Flaw α := do
  let (result, rest) ← read text
  match skipSpace rest with
  | [] => return result
  | rest => .error (flawAfter .trailingCharacters rest)

/-- The value that a text writes. -/
def parse (text : String) : Except Flaw Json := wholeText (value maxDepth) text.toList

/-! ## Source text of members -/

/-- A reader's value together with the text that it was read from. -/
def withSource (read : Reader α) : Reader (α × List Char) := fun s => do
  let (result, rest) ← read s
  return ((result, s.take (s.length - rest.length)), rest)

/-- The members of the object that a text writes, each with the text of its value. -/
def memberSources (text : String) : List (String × String) :=
  match skipSpace text.toList with
  | '\x7b' :: rest =>
    match sequence .object (member stringText fun _ => withSource (value (maxDepth - 1))) rest with
    | .ok (members, _) => members.map fun (key, _, source) => (key, String.ofList source)
    | .error _ => []
  | _ => []

/-! ## Where a flaw is -/

/-- Line and column after a number of bytes: lines count from 1, columns count bytes. -/
def positionAfter (line column : Nat) : Nat → List Char → Nat × Nat
  | _, [] => (line, column)
  | bytes, c :: rest =>
    if bytes < c.utf8Size then (line, column + bytes)
    else if c = '\n' then positionAfter (line + 1) 0 (bytes - 1) rest
    else positionAfter line (column + c.utf8Size) (bytes - c.utf8Size) rest

namespace Flaw

/-- Line and column of the flaw in the whole text. -/
def position (flaw : Flaw) (text : List Char) : Nat × Nat :=
  positionAfter 1 0 (byteCount text - byteCount flaw.rest + flaw.ahead) text

def message (flaw : Flaw) (text : String) : String :=
  let (line, column) := flaw.position text.toList
  flaw.reason.message ++ " at line " ++ toString line ++ " column " ++ toString column

end Flaw

end PluginWorkshop.Json
