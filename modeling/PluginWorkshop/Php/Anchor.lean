import PluginWorkshop.Error
import PluginWorkshop.Php.Masking

/-!
# Anchors in a bootstrap file

An anchor is a place at which a bootstrap file is edited. It is looked for in the masked copy of
the file, by markers and by counting braces, and a file of another shape is refused rather than
guessed at.

* `propertyAnchor`: the line in front of which a property is declared, above the constructor and
  the comments and attributes that belong to it.
* `initializerEnd`: the line of the brace that closes the initialization method.
* `firstMatch`: the first line that satisfies a test.
-/

namespace PluginWorkshop.Php

open Text

/-- Opens the declaration of the constructor. -/
def constructorMarker : Line := "function __construct(".toList

/-- Opens the declaration of the initialization method. -/
def initializerMarker : Line := "function instantiate(".toList

/-- A line of a file next to its masked copy. -/
structure Row where
  text : Line
  code : Line
  deriving DecidableEq, Repr

namespace Row

/-- No code stands on the line. -/
def isCodeless (row : Row) : Bool := isAllBlank row.code

/-- A comment, or the inside of a string, and nothing else stands on the line. -/
def isCommentOnly (row : Row) : Bool := row.isCodeless && !isAllBlank row.text

end Row

/-- The lines of a file next to their masked copies. -/
def rows (lines : List Line) : List Row := List.zipWith Row.mk lines (mask lines)

/-- What became of looking for an anchor; found lines are counted from 0. -/
inductive AnchorLookup where
  | found (line : Nat)
  /-- Something is there, but no single line that takes an edit; `lines` are counted from 1. -/
  | ambiguous (lines : List Nat) (reason : String)
  | notFound
  deriving DecidableEq, Repr

namespace AnchorLookup

/-- The line found, or the error that says why there is none. -/
def require (lookup : AnchorLookup) (anchor : String) (path : Path) : Except PluginError Nat :=
  match lookup with
  | found line => .ok line
  | ambiguous lines reason => .error (.anchorAmbiguous anchor path lines reason)
  | notFound => .error (.anchorNotFound anchor path)

end AnchorLookup

/-! ## Markers -/

/-- The lines whose code contains the marker. -/
def markerLines (marker : Line) (rows : List Row) : List Nat :=
  (rows.zipIdx.filter fun (row, _) => containsText marker row.code).map Prod.snd

/-- The one line whose code contains the marker. -/
def uniqueMarker (marker : Line) (rows : List Row) : Except AnchorLookup Nat :=
  match markerLines marker rows with
  | [] => .error .notFound
  | [line] => .ok line
  | lines =>
    .error <| .ambiguous (lines.map (· + 1))
      ("'" ++ String.ofList marker ++ "' appears more than once")

/-! ## Above the constructor

The lines above the constructor are read upwards: `above` lists them from the nearest one on, so
that its length is the number of the line below it. -/

/-- The comment that ends at the first of these lines opens on a line of its own. -/
def opensComment (line : Line) : Bool :=
  let line := dropBlanks line
  "/*".toList.isPrefixOf line || "//".toList.isPrefixOf line || "#".toList.isPrefixOf line

/-- Where reading a line of attributes from its end got to. -/
inductive AttributeScan where
  /-- The line is read up, and the attributes open on it. -/
  | opened
  /-- The line is read up, and this many brackets are still to be opened. -/
  | pending (depth : Nat)
  /-- There is other code on the line. -/
  | rejected
  deriving DecidableEq, Repr

/-- Reads a line of attributes backwards. `depth` counts the brackets closed and not yet opened;
the bracket that opens an attribute follows a `#`, and in front of that stands nothing or another
attribute. -/
def scanAttributes : Nat → List Char → AttributeScan
  | depth, [] => .pending depth
  | depth, ']' :: rest => scanAttributes (depth + 1) rest
  | 0, c :: rest => if isBlank c then scanAttributes 0 rest else .rejected
  | 1, '[' :: '#' :: rest =>
    match dropBlanks rest with
    | [] => .opened
    | ']' :: _ => scanAttributes 0 rest
    | _ => .rejected
  | 1, '[' :: _ => .rejected
  | depth + 2, '[' :: rest => scanAttributes (depth + 1) rest
  | depth + 1, _ :: rest => scanAttributes (depth + 1) rest

/-- The number of lines, from the nearest one up, that the attributes ending on line `last` take,
or the line with other code (`last` itself if a bracket is never opened). -/
def attributeLines (last depth : Nat) : List Row → Except Nat Nat
  | [] => .error last
  | row :: above =>
    match scanAttributes depth row.code.reverse with
    | .opened => .ok 1
    | .rejected => .error above.length
    | .pending depth => (attributeLines last depth above).map (· + 1)

/-- What the nearest of the lines above belongs to. -/
inductive AboveBlock where
  /-- It does not belong to the constructor. -/
  | boundary
  /-- It ends a comment of `count` lines. -/
  | comment (count : Nat)
  /-- It ends attributes. -/
  | attribute
  deriving DecidableEq, Repr

/-- The kind of block that ends right above. -/
def blockAbove : List Row → AboveBlock
  | [] => .boundary
  | row :: above =>
    if row.isCodeless then
      if isAllBlank row.text then .boundary
      else .comment ((row :: above).takeWhile Row.isCommentOnly).length
    else if (trim row.code).getLast? = some ']' then .attribute
    else .boundary

def commentReason : String := "comment above the constructor does not start on its own line"

def attributeReason : String := "code above the constructor is not an attribute"

/-- The lines that the block right above takes, `none` where there is no such block. -/
def blockLines (above : List Row) : Except AnchorLookup (Option Nat) :=
  match blockAbove above with
  | .boundary => .ok none
  | .comment count =>
    match above[count - 1]? with
    | some first =>
      if opensComment first.text then .ok (some count)
      else .error (.ambiguous [above.length - count + 1, above.length] commentReason)
    | none => .ok none
  | .attribute =>
    match attributeLines (above.length - 1) 0 above with
    | .ok count => .ok (some count)
    | .error line => .error (.ambiguous [line + 1, above.length] attributeReason)

/-- Goes up over the comments and attributes that end right above; the line reached is found. -/
def climb (above : List Row) : AnchorLookup :=
  match blockLines above with
  | .error lookup => lookup
  | .ok none => .found above.length
  | .ok (some count) =>
    if _taken : 0 < count ∧ above ≠ [] then climb (above.drop count) else .found above.length
termination_by above.length
decreasing_by
  have := List.length_pos_iff.mpr _taken.2
  simp only [List.length_drop]
  omega

/-- The line in front of which a property is declared. -/
def propertyAnchor (rows : List Row) : AnchorLookup :=
  match uniqueMarker constructorMarker rows with
  | .error lookup => lookup
  | .ok line => climb (rows.take line).reverse

/-! ## The end of the initialization method -/

/-- The characters of the code, each with its line, from line `start` on. -/
def placedFrom (start : Nat) (lines : List Line) : List (Nat × Char) :=
  (lines.zipIdx start).flatMap fun (line, index) => line.map (index, ·)

/-- The line of the first opening brace and the code after it, unless a semicolon comes first. -/
def findOpening : List (Nat × Char) → Option (Nat × List (Nat × Char))
  | [] => none
  | (line, c) :: rest =>
    if c = ';' then none
    else if c = '{' then some (line, rest)
    else findOpening rest

/-- The line of the brace that closes the innermost of `depth` further open blocks. -/
def findClosing : Nat → List (Nat × Char) → Option Nat
  | _, [] => none
  | depth, (line, c) :: rest =>
    if c = '{' then findClosing (depth + 1) rest
    else if c = '}' then
      match depth with
      | 0 => some line
      | depth + 1 => findClosing depth rest
    else findClosing depth rest

/-- The lines of the braces around the body of the method whose marker is on line `line`. -/
def methodBody (marker : Line) (line : Nat) (code : List Line) : Option (Nat × Nat) := do
  let declaration ← code[line]?
  let fromMarker ← suffixFrom? marker declaration
  let (opening, body) ← findOpening (placedFrom line (fromMarker :: code.drop (line + 1)))
  let closing ← findClosing 0 body
  return (opening, closing)

def oneLineReason : String := "initialization method body opens and closes on one line"

def sharedBraceReason : String := "closing brace shares its line with other code"

/-- The line of the brace that closes the initialization method. -/
def initializerEnd (rows : List Row) : AnchorLookup :=
  match uniqueMarker initializerMarker rows with
  | .error lookup => lookup
  | .ok line =>
    let code := rows.map Row.code
    match methodBody initializerMarker line code with
    | none => .notFound
    | some (opening, closing) =>
      if closing = opening then .ambiguous [opening + 1] oneLineReason
      else if (code[closing]?).map trim = some ['\x7d'] then .found closing
      else .ambiguous [closing + 1] sharedBraceReason

/-! ## Lines by a test -/

/-- The braces that a line opens less those that it closes. -/
def braceBalance (code : Line) : Int := (code.count '{' : Int) - code.count '}'

/-- The rows next to their numbers and to the number of blocks open at their start. -/
def rowsWithDepth (rows : List Row) : List (Nat × Int × Row) :=
  let rec go (index : Nat) (depth : Int) : List Row → List (Nat × Int × Row)
    | [] => []
    | row :: rows => (index, depth, row) :: go (index + 1) (depth + braceBalance row.code) rows
  go 0 0 rows

/-- The first line whose code satisfies the test, outside all blocks if `topLevel` is set. -/
def firstMatch (test : Line → Bool) (topLevel : Bool) (rows : List Row) : AnchorLookup :=
  match (rowsWithDepth rows).find? fun (_, depth, row) =>
      (!topLevel || depth == 0) && test row.code with
  | some (index, _, _) => .found index
  | none => .notFound

/-! ## Anchors -/

/-- A place at which a bootstrap file is edited. -/
inductive Anchor where
  | beforeConstructor
  | endOfInitializer
  /-- The first line whose code satisfies a test. -/
  | marker (label : String) (test : Line → Bool) (topLevel : Bool)

namespace Anchor

/-- The name of the anchor in messages. -/
def label : Anchor → String
  | beforeConstructor => "constructor declaration"
  | endOfInitializer => "end of initialization method"
  | marker label _ _ => label

/-- Looks for the anchor in the lines of a file. -/
def locate (anchor : Anchor) (lines : List Line) : AnchorLookup :=
  match anchor with
  | beforeConstructor => propertyAnchor (rows lines)
  | endOfInitializer => initializerEnd (rows lines)
  | marker _ test topLevel => firstMatch test topLevel (rows lines)

/-- The line of the anchor in the file at `path`, which only messages mention. -/
def find (anchor : Anchor) (path : Path) (lines : List Line) : Except PluginError Nat :=
  (anchor.locate lines).require anchor.label path

end Anchor

end PluginWorkshop.Php
