import PluginWorkshop.Error
import PluginWorkshop.Php.Identifier
import PluginWorkshop.Template.Builtin
import PluginWorkshop.Text.Split

/-!
# Class specifications

A request for a class names its kind and a class path such as `Admin/Users/List`: folders and a
class name. `ClassSpec.ofRequest` accepts it if all of them are identifiers, and settles the
property that will hold the object.
-/

namespace PluginWorkshop

open Text

/-- Kinds of classes. -/
inductive ClassKind where
  | model
  | postType
  | taxonomy
  /-- A support file of an integration, which is never wired into the bootstrap file. -/
  | integrationStub
  deriving DecidableEq, Repr

namespace ClassKind

def all : List ClassKind := [model, postType, taxonomy, integrationStub]

/-- The name on the command line. -/
def name : ClassKind → String
  | model => "model"
  | postType => "post-type"
  | taxonomy => "taxonomy"
  | integrationStub => "integration-stub"

/-- The name in messages. -/
def label : ClassKind → String
  | model => "Model"
  | postType => "PostType"
  | taxonomy => "Taxonomy"
  | integrationStub => "IntegrationStub"

/-- The template of the class file. -/
def template : ClassKind → TemplateName
  | model => .model
  | postType => .postType
  | taxonomy => .taxonomy
  | integrationStub => .ideHelper

/-- The kind is registered under a slug and a name. -/
def isRegistrable (kind : ClassKind) : Bool := kind == postType || kind == taxonomy

def parse (text : String) : Except PluginError ClassKind :=
  match all.find? (·.name == text) with
  | some kind => .ok kind
  | none => .error (.invalidArgument ("unknown class kind: '" ++ text ++ "'"))

end ClassKind

/-- Properties that the base classes have. -/
def reservedNames : List String :=
  ["plugin", "post", "user", "term", "comment", "option", "meta", "attachment", "db", "wp",
    "query", "request", "rest", "ajax", "cache", "log", "constant", "hooks", "route"]

/-- The property for a requested name: a reserved name is capitalized. -/
def resolveVariable (name : String) : String :=
  if reservedNames.contains name then capitalize name else name

/-- A request for a class. -/
structure ClassRequest where
  kind : ClassKind
  /-- Folders and class name, separated by slashes, backslashes or dots. -/
  classPath : String
  /-- The property that is to hold the object. -/
  property : Option String
  slug : Option String
  singularName : Option String
  deriving DecidableEq, Repr

/-- A class that can be made. -/
structure ClassSpec where
  kind : ClassKind
  folders : List String
  className : String
  /-- The property that holds the object. -/
  property : String
  /-- The slug of a post type or taxonomy. -/
  slug : Option String
  /-- The name of a post type or taxonomy. -/
  singularName : Option String
  deriving DecidableEq, Repr

namespace ClassSpec

/-- Separates folders and the class name. -/
def isSeparator (c : Char) : Bool := c == '/' || c == '\\' || c == '.'

/-- The pieces of a class path that are not empty. -/
def pathSegments (classPath : String) : List (List Char) :=
  (splitWhere isSeparator classPath.toList).filter (!·.isEmpty)

/-- The folders and the class name, all of them identifiers. -/
def parsePath (classPath : String) : Except PluginError (List String × String) :=
  let segments := pathSegments classPath
  match segments.getLast? with
  | none => .error (.invalidArgument ("class path '" ++ classPath ++ "' has no class name"))
  | some last =>
    match segments.find? (!Php.isIdentifier ·) with
    | some bad =>
      .error <| .invalidArgument <| "'" ++ String.ofList bad ++ "' in class path '" ++ classPath ++
        "' is not a valid PHP identifier"
    | none => .ok (segments.dropLast.map String.ofList, String.ofList last)

/-- The name of a property, without the dollar signs in front of it. -/
def parseProperty (text : String) : Except PluginError String :=
  let name := text.toList.dropWhile (· == '$')
  if Php.isIdentifier name then .ok (String.ofList name)
  else
    .error <| .invalidArgument <|
      "variable '" ++ String.ofList name ++ "' is not a valid PHP identifier"

/-- The class that is requested. -/
def ofRequest (request : ClassRequest) : Except PluginError ClassSpec := do
  let (folders, className) ← parsePath request.classPath
  let requested ← match request.property with
    | some text => parseProperty text
    | none => pure className
  let property := resolveVariable requested
  if request.kind.isRegistrable then
    return ⟨request.kind, folders, className, property,
      some (request.slug.getD (lower className)),
      some (request.singularName.getD (capitalize className))⟩
  else if request.slug.isSome ∨ request.singularName.isSome then
    throw (.invalidArgument (request.kind.label ++ " classes take no slug or name"))
  else return ⟨request.kind, folders, className, property, none, none⟩

/-- The folders and the class name. -/
def segments (spec : ClassSpec) : List String := spec.folders ++ [spec.className]

end ClassSpec

end PluginWorkshop
