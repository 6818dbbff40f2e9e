import PluginWorkshop.CommandLog.Entry
import PluginWorkshop.Error
import PluginWorkshop.Php.Identifier
import PluginWorkshop.Text.Ascii
import PluginWorkshop.Text.Split

/-!
# Options for a new plugin

The options of `start`, most of which are handed on to WP-CLI. The slug is made of ASCII letters,
digits and single hyphens, so that it can be a directory name and is never read as an option.
-/

namespace PluginWorkshop

open Text

/-- What is asked of a new plugin. -/
structure StartOptions where
  slug : Option String
  nameSpace : Option String
  pluginName : Option String
  pluginDescription : Option String
  pluginAuthor : Option String
  pluginAuthorUri : Option String
  pluginUri : Option String
  skipTests : Bool
  /-- The provider of continuous integration. -/
  ci : Option String
  activate : Bool
  activateNetwork : Bool
  /-- Existing files may be overwritten. -/
  force : Bool
  deriving DecidableEq, Repr

/-- The runs of ASCII letters and digits in a text. -/
def words (s : List Char) : List (List Char) :=
  (splitWhere (!isLetterOrDigit ·) s).filter (!·.isEmpty)

/-- The words of a text in lower case, with hyphens between them. -/
def slugify (text : String) : String :=
  String.ofList (join ['-'] ((words text.toList).map fun word => word.map Char.toLower))

/-- The words of a text, each with its first letter in upper case. -/
def pascalCase (text : String) : String :=
  String.join ((words text.toList).map fun word => capitalize (String.ofList word))

/-- A namespace: identifiers with backslashes between them. -/
def isNamespace (text : String) : Bool := (splitOn '\\' text.toList).all Php.isIdentifier

namespace StartOptions

/-- The slug of the plugin, from the slug given or else from its name. -/
def resolvedSlug (options : StartOptions) : Except PluginError String :=
  let slug := slugify ((options.slug <|> options.pluginName).getD "")
  if slug.isEmpty then .error (.invalidArgument "a plugin slug or plugin name is required")
  else .ok slug

/-- The namespace of the plugin, from the one given or else from the slug. -/
def resolvedNamespace (options : StartOptions) (slug : String) : Except PluginError String :=
  let name := match options.nameSpace with
    | some given => String.ofList (trimWhere (· == '\\') given.toList)
    | none => pascalCase slug
  if isNamespace name then .ok name
  else .error (.invalidArgument ("'" ++ name ++ "' is not a valid PHP namespace"))

/-- The fields of the plugin's header under the names of their options. -/
def headerFields (options : StartOptions) : List (String × Option String) := [
  ("plugin_name", options.pluginName),
  ("plugin_description", options.pluginDescription),
  ("plugin_author", options.pluginAuthor),
  ("plugin_author_uri", options.pluginAuthorUri),
  ("plugin_uri", options.pluginUri)]

/-- The switches under the names of their options. -/
def switches (options : StartOptions) : List (String × Bool) := [
  ("skip-tests", options.skipTests),
  ("activate", options.activate),
  ("activate-network", options.activateNetwork),
  ("force", options.force)]

/-- The values that are given. -/
def given (fields : List (String × Option String)) : List (String × String) :=
  fields.filterMap fun (name, value) => value.map (name, ·)

/-- The names of the switches that are set. -/
def setSwitches (options : StartOptions) : List String :=
  (options.switches.filter Prod.snd).map Prod.fst

/-- The command that has WP-CLI generate the plugin below a directory. -/
def scaffoldCommand (options : StartOptions) (wpBinary : String) (directory : Path) :
    Except PluginError (List String) := do
  let slug ← options.resolvedSlug
  return [wpBinary, "scaffold", "plugin", slug, "--dir=" ++ directory] ++
    (given (options.headerFields ++ [("ci", options.ci)])).map
      (fun (name, value) => "--" ++ name ++ "=" ++ value) ++
    options.setSwitches.map ("--" ++ ·)

/-- The invocation as the command log stores it. -/
def commandEntry (options : StartOptions) (directory : Path) : CommandEntry where
  command := "start"
  args := []
  options := .ofList <|
    ("dir", directory) ::
      given ([("slug", options.slug), ("namespace", options.nameSpace)] ++ options.headerFields ++
        [("ci", options.ci)]) ++
      options.setSwitches.map (·, "true")

end StartOptions

end PluginWorkshop
