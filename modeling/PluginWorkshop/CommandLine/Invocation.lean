import PluginWorkshop.ClassSpec.Basic
import PluginWorkshop.CommandLine.Matching
import PluginWorkshop.Project.StartOptions

/-!
# Invocations

The commands of the program with their arguments (`Invocation`), and the grammar by which they are
read (`Invocation.parse`).
-/

namespace PluginWorkshop

/-- Shells for which completions are written. -/
inductive Shell where
  | bash
  | elvish
  | fish
  | powershell
  | zsh
  deriving DecidableEq, Repr

namespace Shell

def all : List Shell := [bash, elvish, fish, powershell, zsh]

def name : Shell → String
  | bash => "bash"
  | elvish => "elvish"
  | fish => "fish"
  | powershell => "powershell"
  | zsh => "zsh"

def parse? (text : String) : Option Shell := all.find? (·.name == text)

end Shell

/-- What is to be done with the settings. -/
inductive SettingsCommand where
  /-- Stores the standard settings where there is no file. -/
  | create
  | show
  | get (key : String)
  | set (key value : String)
  /-- Says where the settings are stored. -/
  | locate
  deriving DecidableEq, Repr

/-- What the program is asked to do. -/
inductive Command where
  | make (request : ClassRequest) (root : Path)
  | add (integration : String) (root : Path) (noInstall : Bool)
  | remove (integration : String) (root : Path) (noInstall : Bool)
  /-- Generates a plugin below a directory, possibly without asking first. -/
  | start (options : StartOptions) (directory : Path) (yes : Bool)
  | settings (command : SettingsCommand)
  | completions (shell : Shell)
  deriving DecidableEq, Repr

/-- A command with the options that all commands have. -/
structure Invocation where
  verbose : Bool
  /-- The name of the output format. -/
  format : Option String
  command : Command
  deriving DecidableEq, Repr

namespace Invocation

open CommandLine

/-! ## The grammar -/

def programName : String := "wp-trait"

/-- The options that every command has. -/
def commonOptions : List OptionSpec :=
  [⟨"verbose", some 'v', .switch⟩, .text "format", ⟨"help", some 'h', .help⟩]

/-- A command with positional arguments. -/
def leaf (name : String) (options : List OptionSpec) (positionals : List PositionalSpec) :
    CommandSpec :=
  .leaf name (options ++ commonOptions) positionals

/-- A command with further commands. -/
def group (name : String) (options : List OptionSpec) (commands : List CommandSpec) :
    CommandSpec :=
  .group name (options ++ commonOptions) commands

def required (name : String) : PositionalSpec := ⟨name, .any, true⟩

def optional (name : String) : PositionalSpec := ⟨name, .any, false⟩

/-- The kinds of classes that can be made. -/
def makeableKinds : List ClassKind := [.model, .postType, .taxonomy]

def makeSpec : CommandSpec :=
  leaf "make" [.text "var", .path "path"] [
    ⟨"kind", .oneOf (makeableKinds.map ClassKind.name), true⟩,
    required "class_path", optional "slug", optional "name"]

def toggleSpec (name : String) : CommandSpec :=
  leaf name [.path "path", .switch "no-install"] [required "package"]

def startSpec : CommandSpec :=
  leaf "start" [
    .text "slug", .text "namespace", .text "plugin_name", .text "plugin_description",
    .text "plugin_author", .text "plugin_author_uri", .text "plugin_uri", .switch "skip-tests",
    .text "ci", .switch "activate", .switch "activate-network", .switch "force",
    ⟨"yes", some 'y', .switch⟩, .path "path"] []

def settingsSpec : CommandSpec :=
  group "config" [] [
    leaf "init" [] [],
    leaf "show" [] [],
    leaf "get" [] [required "key"],
    leaf "set" [] [required "key", required "value"],
    leaf "path" [] []]

def completionsSpec : CommandSpec :=
  leaf "completions" [] [⟨"shell", .oneOf (Shell.all.map Shell.name), true⟩]

/-- The grammar of the whole command line. -/
def spec : CommandSpec :=
  group programName [⟨"version", some 'V', .version⟩]
    [makeSpec, toggleSpec "add", toggleSpec "remove", startSpec, settingsSpec, completionsSpec]

/-! ## Reading -/

/-- The value of an argument that the grammar requires. -/
def requiredValue (m : Match) (name : String) : Except UsageIssue String :=
  match m.value? name with
  | some value => .ok value
  | none => .error .missingArgument

/-- The directory that is worked on, the current one if none is given. -/
def pathOf (m : Match) : Path := (m.value? "path").getD "."

def makeOf (m : Match) : Except UsageIssue Command := do
  let kindName ← requiredValue m "kind"
  let kind ← (ClassKind.parse kindName).mapError fun _ => .invalidValue
  let request := {
    kind
    classPath := ← requiredValue m "class_path"
    property := m.value? "var"
    slug := m.value? "slug"
    singularName := m.value? "name" }
  return .make request (pathOf m)

def startOptionsOf (m : Match) : StartOptions where
  slug := m.value? "slug"
  nameSpace := m.value? "namespace"
  pluginName := m.value? "plugin_name"
  pluginDescription := m.value? "plugin_description"
  pluginAuthor := m.value? "plugin_author"
  pluginAuthorUri := m.value? "plugin_author_uri"
  pluginUri := m.value? "plugin_uri"
  skipTests := m.has "skip-tests"
  ci := m.value? "ci"
  activate := m.has "activate"
  activateNetwork := m.has "activate-network"
  force := m.has "force"

def shellOf (m : Match) : Except UsageIssue Shell := do
  match Shell.parse? (← requiredValue m "shell") with
  | some shell => return shell
  | none => throw .invalidValue

/-- The command that was named, with its arguments. -/
def commandOf (m : Match) : Except UsageIssue Command := do
  match m.commands with
  | ["make"] => makeOf m
  | ["add"] => return .add (← requiredValue m "package") (pathOf m) (m.has "no-install")
  | ["remove"] => return .remove (← requiredValue m "package") (pathOf m) (m.has "no-install")
  | ["start"] => return .start (startOptionsOf m) (pathOf m) (m.has "yes")
  | ["config", "init"] => return .settings .create
  | ["config", "show"] => return .settings .show
  | ["config", "get"] => return .settings (.get (← requiredValue m "key"))
  | ["config", "set"] =>
    return .settings (.set (← requiredValue m "key") (← requiredValue m "value"))
  | ["config", "path"] => return .settings .locate
  | ["completions"] => return .completions (← shellOf m)
  | _ => throw .missingCommand

/-- Reads the arguments of the program, without its name. -/
def parse (arguments : List String) : Except UsageIssue Invocation := do
  let m ← spec.read arguments
  return { verbose := m.has "verbose", format := m.value? "format", command := ← commandOf m }

end Invocation

end PluginWorkshop
