import PluginWorkshop.Machine.Path
import PluginWorkshop.Manifest.Basic

/-!
# Namespace mappings

The section `autoload.psr-4` of a manifest maps namespace prefixes to directories. New classes go
under its first usable entry.
-/

namespace PluginWorkshop

open Text

/-- A namespace prefix with the directory that holds its classes. -/
structure NamespaceMapping where
  /-- The prefix as the manifest writes it. -/
  nsPrefix : String
  /-- The prefix without the separators around it. -/
  rootNamespace : String
  sourceDir : Path
  deriving DecidableEq, Repr

namespace Manifest

/-- The object `autoload.psr-4`, whose key may be in any case. -/
def namespaceMap? (manifest : Manifest) : Option Members := do
  let autoload ← (← Members.get? "autoload" manifest.document).members?
  let (_, map) ← autoload.find? fun (key, _) => equalIgnoringCase key "psr-4"
  map.members?

/-- The directory of an entry: a text, or the first item of a list. -/
def directory? : Json → Option String
  | .string directory => some directory
  | .array (.string directory :: _) => some directory
  | _ => none

/-- The directory without slashes at its end. -/
def withoutSlashes (directory : String) : String :=
  String.ofList (directory.toList.reverse.dropWhile (· == '/')).reverse

/-- The mapping of an entry that names a namespace and a directory below the root. -/
def mappingOf? (root : Path) (entry : String × Json) : Option NamespaceMapping := do
  let name := trimWhere (· == '\\') entry.1.toList
  if name.isEmpty then none
  else
    let directory ← directory? entry.2
    return ⟨entry.1, String.ofList name, Path.join root (withoutSlashes directory)⟩

/-- The first usable entry of the namespace map. -/
def namespaceMapping (manifest : Manifest) (root : Path) : Except PluginError NamespaceMapping :=
  match manifest.namespaceMap? with
  | none => .error (.autoloadMissing manifest.path)
  | some map =>
    match map.findSome? (mappingOf? root) with
    | some mapping => .ok mapping
    | none => .error (.namespaceMappingMissing manifest.path)

end Manifest

end PluginWorkshop
