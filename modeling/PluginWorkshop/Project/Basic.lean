import PluginWorkshop.Machine.Files
import PluginWorkshop.Manifest.Mapping

/-!
# Projects

A project is the directory of a plugin that can be worked on: its manifest requires the base
library and maps a namespace to a directory, and its main file bears the name of the directory.
-/

namespace PluginWorkshop

/-- A plugin project that can be worked on. -/
structure Project where
  root : Path
  /-- The name of the root directory. -/
  slug : String
  /-- The bootstrap file of the plugin. -/
  mainFile : Path
  manifest : Manifest
  mapping : NamespaceMapping

namespace Project

def manifestFile : String := "composer.json"

/-- The package that a project requires. -/
def basePackage : String := "mehrshaddarzi/wp-trait"

/-- The text domain of translations. -/
def textDomain (project : Project) : String := project.slug

/-- The manifest in a file. -/
def loadManifest (path : Path) : Action Manifest := do
  if Os.isFile (← get) path then
    let text ← Files.readText path
    MonadExcept.ofExcept (Manifest.parse path text)
  else throw (.manifestMissing path)

/-- Writes a manifest back to its file. -/
def saveManifest (manifest : Manifest) : Action Unit :=
  Files.replaceFile manifest.path manifest.render

/-- The project at a root, checked in this order: the manifest, its dependency on the base library,
its namespace mapping and the main file. -/
def resolve (root : Path) : Action Project := do
  let root := ((Os.canonical (← get) root).toOption).getD root
  let manifest ← loadManifest (Path.join root manifestFile)
  if !manifest.hasDependency basePackage then
    throw (.dependencyMissing basePackage)
  let mapping ← MonadExcept.ofExcept (manifest.namespaceMapping root)
  let slug := (Path.fileName? root).getD ""
  let mainFile := Path.join root (slug ++ ".php")
  if slug.isEmpty || !Os.isFile (← get) mainFile then
    throw (.mainFileMissing mainFile)
  return { root, slug, mainFile, manifest, mapping }

end Project

end PluginWorkshop
