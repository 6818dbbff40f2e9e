import PluginWorkshop.Machine.Files
import PluginWorkshop.Machine.Process
import PluginWorkshop.Project.Basic
import PluginWorkshop.Project.StartOptions
import PluginWorkshop.Template.Builtin

/-!
# Starting a plugin

WP-CLI generates the plugin; then its manifest is written, the source directory is made and the
dependencies are installed. A manifest that is there already is only overwritten on demand, and
that is checked before WP-CLI runs.
-/

namespace PluginWorkshop

open Text

/-- What starting a plugin has done. -/
structure StartReport where
  slug : String
  nameSpace : String
  directory : Path
  manifest : Path
  install : InstallOutcome
  deriving DecidableEq, Repr

namespace StartOptions

/-- The version of the base library that a new plugin requires. -/
def baseConstraint : String := "^1.0"

/-- The vendor in the package name of the plugin: its author, if that leaves a slug. -/
def vendor (options : StartOptions) : String :=
  let author := slugify (options.pluginAuthor.getD "")
  if author.isEmpty then "wp-plugin" else author

/-- The description of the package. -/
def description (options : StartOptions) : String :=
  (options.pluginDescription <|> options.pluginName).getD ""

/-- The text of the manifest of the new plugin. -/
def manifestText (options : StartOptions) (slug nameSpace : String) : String :=
  TemplateName.manifest.render <|
    TemplateVars.empty
      |>.setJson "package_name" (options.vendor ++ "/" ++ slug)
      |>.setJson "description" options.description
      |>.setJson "wp_trait_version" baseConstraint
      |>.setJson "namespace_key" (nameSpace ++ "\\")
      |>.setJson "source_dir" "src/"

end StartOptions

namespace Project

/-- Generates a plugin below a directory. -/
def start (parent : Path) (options : StartOptions) (wpBinary : String) (runner : Runner)
    (installer : Installer) : Action StartReport := do
  let slug ← MonadExcept.ofExcept options.resolvedSlug
  let nameSpace ← MonadExcept.ofExcept (options.resolvedNamespace slug)
  let directory := Path.join parent slug
  let manifest := Path.join directory manifestFile
  if Os.fileExists (← get) manifest && !options.force then
    throw (.targetExists manifest)
  let command ← MonadExcept.ofExcept (options.scaffoldCommand wpBinary parent)
  runProcess runner parent command
  let sources := Path.join directory "src"
  (Os.makeDirectoryAll sources).orFail (.writeFailed sources)
  Files.replaceFile manifest (options.manifestText slug nameSpace)
  let install ← installer.install directory
  return { slug, nameSpace, directory, manifest, install }

end Project

end PluginWorkshop
