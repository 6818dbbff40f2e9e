import PluginWorkshop.Json.Value
import PluginWorkshop.Project.Integration
import PluginWorkshop.Project.Make
import PluginWorkshop.Project.Start

/-!
# Reports as JSON

The members of each report, in the order in which they are printed.
-/

namespace PluginWorkshop

namespace Json

/-- The text, or null. -/
def ofText? : Option String → Json
  | some text => .string text
  | none => .null

def ofNat (n : Nat) : Json := .number (toString n)

def ofTexts (texts : List String) : Json := .array (texts.map .string)

end Json

namespace Php.LineChange

def toJson (change : LineChange) : Json :=
  .object [
    ("line", .ofNat change.line),
    ("kind", .string change.kind.name),
    ("text", .string change.text)]

end Php.LineChange

namespace MakeReport

def toJson (report : MakeReport) : Json :=
  .object [
    ("kind", .string report.kind.name),
    ("class", .string report.className),
    ("file", .string report.file),
    ("bootstrap", .string report.bootstrap),
    ("variable", .string report.property),
    ("changes", .array (report.changes.map (·.toJson)))]

end MakeReport

namespace ToggleReport

def toJson (report : ToggleReport) : Json :=
  .object [
    ("integration", .string report.integration.name),
    ("action", .string report.action.name),
    ("files", .ofTexts report.files),
    ("changes", .array (report.changes.map (·.toJson))),
    ("install", .ofText? (report.install.map InstallOutcome.name))]

end ToggleReport

namespace StartReport

def toJson (report : StartReport) : Json :=
  .object [
    ("slug", .string report.slug),
    ("namespace", .string report.nameSpace),
    ("directory", .string report.directory),
    ("manifest", .string report.manifest),
    ("install", .string report.install.name)]

end StartReport

end PluginWorkshop
