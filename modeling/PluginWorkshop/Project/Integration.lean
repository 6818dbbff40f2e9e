import PluginWorkshop.Machine.Process
import PluginWorkshop.Project.Basic
import PluginWorkshop.Project.Patch
import PluginWorkshop.Template.Builtin

/-!
# Integrations

Optional parts of a project that are added and removed: a Composer package with a file that is
loaded with the plugin, or a variable that holds the plugin object together with a file that tells
editors its class.
-/

namespace PluginWorkshop

open Text

/-- An optional part of a project. -/
inductive Integration where
  | ideHelper
  | cmb2
  deriving DecidableEq, Repr

/-- What an integration changes. -/
inductive IntegrationTarget where
  /-- A requirement of the manifest, and a file loaded with the plugin. -/
  | dependency (package constraint file : String)
  /-- A binding in the main file, and a support file. -/
  | binding (supportFile : String)
  deriving DecidableEq, Repr

namespace Integration

def all : List Integration := [ideHelper, cmb2]

def name : Integration → String
  | ideHelper => "ide-helper"
  | cmb2 => "cmb2"

def target : Integration → IntegrationTarget
  | ideHelper => .binding "ide-helper.php"
  | cmb2 => .dependency "cmb2/cmb2" "dev-master" "vendor/cmb2/cmb2/init.php"

/-- The integration that a text names, up to the case of ASCII letters. -/
def parse (text : String) : Except PluginError Integration :=
  match all.find? fun integration => equalIgnoringCase integration.name text with
  | some integration => .ok integration
  | none =>
    .error <| .invalidArgument <|
      "unknown package '" ++ text ++ "' (expected one of: " ++
        ", ".intercalate (all.map name) ++ ")"

end Integration

inductive ToggleAction where
  | added
  | removed
  deriving DecidableEq, Repr

namespace ToggleAction

def name : ToggleAction → String
  | added => "added"
  | removed => "removed"

end ToggleAction

/-- What adding or removing an integration has done. -/
structure ToggleReport where
  integration : Integration
  action : ToggleAction
  /-- The files written or removed. -/
  files : List Path
  changes : List Php.LineChange
  /-- What became of installing dependencies, where they changed. -/
  install : Option InstallOutcome
  deriving DecidableEq, Repr

/-- The slug as an identifier: the name of the variable that holds the plugin object. -/
def bindingVariable (slug : String) : String :=
  let name := slug.toList.map fun c => if isLetterOrDigit c then c else '_'
  match name with
  | c :: _ => if isLetter c || c == '_' then String.ofList name else String.ofList ('_' :: name)
  | [] => "_"

namespace Project

/-- Requires the package of an integration and installs it. -/
def addDependency (project : Project) (integration : Integration)
    (package constraint file : String) (installer : Installer) : Action ToggleReport := do
  if project.manifest.hasDependency package then
    throw (.alreadyPresent integration.name)
  let manifest ← MonadExcept.ofExcept (project.manifest.insertDependency package constraint)
  let (_, manifest) ← MonadExcept.ofExcept (manifest.addAutoloadFile file)
  saveManifest manifest
  let install ← installer.install project.root
  return ⟨integration, .added, [manifest.path], [], some install⟩

/-- Requires the package of an integration no longer. -/
def removeDependency (project : Project) (integration : Integration) (package file : String)
    (installer : Installer) : Action ToggleReport := do
  match project.manifest.removeDependency? package with
  | none => throw (.notPresent integration.name)
  | some (_, manifest) =>
    let (_, manifest) := manifest.removeAutoloadFile file
    saveManifest manifest
    let install ← installer.install project.root
    return ⟨integration, .removed, [manifest.path], [], some install⟩

/-- The line of the main file's text on which the plugin object is assigned to the variable. -/
def bindingLine? (text variableName : String) : Option Nat :=
  Php.findBinding? (Php.SourceText.parse text).lines variableName

/-- The text of the support file. -/
def helperText (project : Project) (mainClass variableName : String) : String :=
  TemplateName.ideHelper.render <|
    TemplateVars.empty
      |>.set "plugin_slug" project.slug
      |>.set "main_class" mainClass
      |>.set "variable" variableName

/-- Binds the plugin object to a variable and writes the support file. -/
def addBinding (project : Project) (integration : Integration) (supportFile : String) :
    Action ToggleReport := do
  let variableName := bindingVariable project.slug
  let text ← Files.readText project.mainFile
  if (bindingLine? text variableName).isSome then
    throw (.alreadyPresent integration.name)
  let outcome ← MonadExcept.ofExcept
    (Php.plan project.mainFile text (.bindInstance variableName))
  let mainClass ← MonadExcept.ofExcept (Php.mainInstance project.mainFile text)
  let support := Path.join project.root supportFile
  Files.withNewFile support (project.helperText mainClass variableName) <|
    Files.replaceFile project.mainFile outcome.content
  return ⟨integration, .added, [project.mainFile, support], outcome.changes, none⟩

/-- Takes the binding and the support file away. -/
def removeBinding (project : Project) (integration : Integration) (supportFile : String) :
    Action ToggleReport := do
  let variableName := bindingVariable project.slug
  let text ← Files.readText project.mainFile
  if (bindingLine? text variableName).isNone then
    throw (.notPresent integration.name)
  let outcome ← Php.applyEdit project.mainFile (.unbindInstance variableName)
  let support := Path.join project.root supportFile
  let removed ← Files.removeIfExists support
  let files := if removed then [project.mainFile, support] else [project.mainFile]
  return ⟨integration, .removed, files, outcome.changes, none⟩

/-- Adds an integration to the project at a root. -/
def add (root : Path) (integration : Integration) (installer : Installer) :
    Action ToggleReport := do
  let project ← resolve root
  match integration.target with
  | .dependency package constraint file =>
    project.addDependency integration package constraint file installer
  | .binding supportFile => project.addBinding integration supportFile

/-- Removes an integration from the project at a root. -/
def remove (root : Path) (integration : Integration) (installer : Installer) :
    Action ToggleReport := do
  let project ← resolve root
  match integration.target with
  | .dependency package _ file => project.removeDependency integration package file installer
  | .binding supportFile => project.removeBinding integration supportFile

end Project

end PluginWorkshop
