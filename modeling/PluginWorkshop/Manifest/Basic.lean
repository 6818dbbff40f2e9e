import PluginWorkshop.Error
import PluginWorkshop.Json.Printer
import PluginWorkshop.Json.Reader
import PluginWorkshop.Text.Ascii
import PluginWorkshop.Text.Blank
import PluginWorkshop.Text.Split

/-!
# Manifests

A manifest is the `composer.json` of a plugin: a JSON object of which `require` and `autoload` are
read and changed, and all else is kept. It remembers the text it was read from, so that saving
leaves alone what did not change (`Manifest.render`): a document equal to the one that was read
gives the text that was read, and a member with an equal value keeps its source text.
-/

namespace PluginWorkshop

open Text

/-- A manifest: its document, and what it was read from. -/
structure Manifest where
  path : Path
  document : Members
  /-- The document as it was read. -/
  loaded : Members
  /-- The text that was read. -/
  source : String
  /-- The indentation of one level. -/
  indent : String
  deriving Repr

namespace Manifest

/-! ## Reading -/

/-- The indentation of the first indented line after the first line, or four spaces. -/
def indentOf (text : String) : String :=
  match ((splitOn '\n' text.toList).drop 1).map indentation |>.find? (!·.isEmpty) with
  | some indent => String.ofList indent
  | none => "    "

/-- The manifest that a text writes; the path is for messages and for saving. -/
def parse (path : Path) (text : String) : Except PluginError Manifest :=
  match Json.parse text with
  | .error flaw =>
    let reason := flaw.message text
    .error (.manifestMalformed path reason (some reason))
  | .ok (.object document) => .ok ⟨path, document, document, text, indentOf text⟩
  | .ok _ => .error (.manifestMalformed path "top-level value is not an object" none)

/-! ## Dependencies -/

/-- The `require` entry for a package, up to the case of ASCII letters. -/
def dependency? (manifest : Manifest) (package : String) : Option (String × Json) := do
  let required ← (← Members.get? "require" manifest.document).members?
  required.find? fun (name, _) => equalIgnoringCase name package

def hasDependency (manifest : Manifest) (package : String) : Bool :=
  (manifest.dependency? package).isSome

/-- The object under a key, which is empty where the key is missing. -/
def objectUnder (manifest : Manifest) (key : String) : Except PluginError Members :=
  match Members.get? key manifest.document with
  | none => .ok []
  | some (.object members) => .ok members
  | some _ => .error (.manifestMalformed manifest.path (key ++ " is not an object") none)

/-- The manifest with another object under a key. -/
def withObject (manifest : Manifest) (key : String) (members : Members) : Manifest :=
  { manifest with document := Members.put key (.object members) manifest.document }

/-- Requires a package. -/
def insertDependency (manifest : Manifest) (package constraint : String) :
    Except PluginError Manifest := do
  let required ← manifest.objectUnder "require"
  return manifest.withObject "require" (Members.put package (.string constraint) required)

/-- Requires a package no longer; gives the constraint that was there. -/
def removeDependency? (manifest : Manifest) (package : String) : Option (Json × Manifest) := do
  let (key, constraint) ← manifest.dependency? package
  let required ← (← Members.get? "require" manifest.document).members?
  return (constraint, manifest.withObject "require" (Members.remove key required))

/-! ## Files loaded with the plugin -/

/-- The list `autoload.files`, if both levels have the right type. -/
def fileList? (manifest : Manifest) : Option (List Json) := do
  let autoload ← (← Members.get? "autoload" manifest.document).members?
  (← Members.get? "files" autoload).items?

/-- The texts in `autoload.files`. -/
def autoloadFiles (manifest : Manifest) : List String :=
  (manifest.fileList?.getD []).filterMap Json.text?

/-- The entry of a list is this text. -/
def isText (text : String) (entry : Json) : Bool := entry.text? == some text

/-- Appends a file to `autoload.files` and says whether it was not listed before. -/
def addAutoloadFile (manifest : Manifest) (file : String) :
    Except PluginError (Bool × Manifest) := do
  let autoload ← manifest.objectUnder "autoload"
  let withFiles (files : List Json) : Manifest :=
    manifest.withObject "autoload" (Members.put "files" (.array files) autoload)
  match Members.get? "files" autoload with
  | none => return (true, withFiles [.string file])
  | some (.array files) =>
    if files.any (isText file) then return (false, manifest)
    else return (true, withFiles (files ++ [.string file]))
  | some _ => throw (.manifestMalformed manifest.path "autoload.files is not an array" none)

/-- Removes a file from `autoload.files`, and the list once it is empty; says whether the file was
listed. -/
def removeAutoloadFile (manifest : Manifest) (file : String) : Bool × Manifest :=
  match Members.get? "autoload" manifest.document with
  | some (.object autoload) =>
    match Members.get? "files" autoload with
    | some (.array files) =>
      let kept := files.filter (!isText file ·)
      let autoload :=
        if kept.isEmpty then Members.remove "files" autoload
        else Members.put "files" (.array kept) autoload
      (files.any (isText file), manifest.withObject "autoload" autoload)
    | _ => (false, manifest)
  | _ => (false, manifest)

/-! ## Writing -/

/-- The line ending of the text that was read. -/
def eol (manifest : Manifest) : List Char :=
  if containsText ['\r', '\n'] manifest.source.toList then ['\r', '\n'] else ['\n']

def endsWithNewline (text : String) : Bool := text.toList.getLast? == some '\n'

/-- A value on several lines, indented by one level more than it starts. -/
def printedValue (manifest : Manifest) (value : Json) : List Char :=
  replaceChar '\n' (manifest.eol ++ manifest.indent.toList)
    (Json.prettyChars [] manifest.indent.toList value)

/-- The text of a member's value: its source text if it did not change. -/
def memberText (manifest : Manifest) (sources : List (String × String)) (key : String)
    (value : Json) : List Char :=
  match sources.lookup key, Members.get? key manifest.loaded with
  | some source, some before =>
    if before.same value then source.toList else manifest.printedValue value
  | _, _ => manifest.printedValue value

/-- The document with the layout of the text that was read. -/
def render (manifest : Manifest) : String :=
  if (Json.object manifest.document).same (.object manifest.loaded) then manifest.source
  else
    let sources := (Json.memberSources manifest.source).reverse
    let line (member : String × Json) : List Char :=
      manifest.eol ++ manifest.indent.toList ++ Json.quote member.1 ++ ": ".toList ++
        manifest.memberText sources member.1 member.2
    let members := manifest.document.map line
    let closing := if members.isEmpty then [] else manifest.eol
    let ending := if endsWithNewline manifest.source then manifest.eol else []
    String.ofList ('\x7b' :: Json.commaSeparated members ++ closing ++ '\x7d' :: ending)

end Manifest

end PluginWorkshop
