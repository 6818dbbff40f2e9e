import PluginWorkshop.Json.Value
import PluginWorkshop.Report.Encode
import PluginWorkshop.Settings.Basic
import PluginWorkshop.Toml.Reader
import PluginWorkshop.Toml.Writer

/-!
# Settings as a document

Settings are stored as a TOML document of three sections. A document may leave out sections and
fields, which then have their standard values, and may hold others, which do not count. A section
may also be an array of its fields in their order.
-/

namespace PluginWorkshop.Settings

/-- The sections under which the settings are stored. -/
def toSections (settings : Settings) : List Toml.Section := [
  ⟨"general", [
    ("default_format", .text settings.defaultFormat),
    ("log_level", .text settings.logLevel)]⟩,
  ⟨"composer", [
    ("binary", .text settings.composerBinary),
    ("install_args", .texts settings.installArgs)]⟩,
  ⟨"wp", [("binary", .text settings.wpBinary)]⟩]

/-- The text under which the settings are stored. -/
def render (settings : Settings) : String := Toml.render settings.toSections

/-- The settings as a report. -/
def toJson (settings : Settings) : Json :=
  .object [
    ("general", .object [
      ("default_format", .string settings.defaultFormat),
      ("log_level", .string settings.logLevel)]),
    ("composer", .object [
      ("binary", .string settings.composerBinary),
      ("install_args", .ofTexts settings.installArgs)]),
    ("wp", .object [("binary", .string settings.wpBinary)])]

/-! ## Reading -/

open Toml

/-- The fields of a section of a document. A section that is not there has none; an array lists the
fields in the order of their names. -/
def sectionFields? (document : Table) (name : String) (names : List String) : Option Table :=
  match document.get? name with
  | none => some []
  | some (.table _ entries) => some entries
  | some (.array items) => some (names.zip items)
  | some (.tables _) | some (.string _) | some (.scalar _) => none

/-- A field as `read` takes it; a field that is not there has its standard value. -/
def fieldOr (standard : α) (read : Value → Option α) (fields : Table) (name : String) : Option α :=
  match fields.get? name with
  | none => some standard
  | some value => read value

/-- The settings in a document. -/
def ofDocument? (document : Table) : Option Settings := do
  let general ← sectionFields? document "general" ["default_format", "log_level"]
  let composer ← sectionFields? document "composer" ["binary", "install_args"]
  let wp ← sectionFields? document "wp" ["binary"]
  return {
    defaultFormat := ← fieldOr standard.defaultFormat Value.text? general "default_format"
    logLevel := ← fieldOr standard.logLevel Value.text? general "log_level"
    composerBinary := ← fieldOr standard.composerBinary Value.text? composer "binary"
    installArgs := ← fieldOr standard.installArgs Value.texts? composer "install_args"
    wpBinary := ← fieldOr standard.wpBinary Value.text? wp "binary" }

/-- The settings that a text stores. -/
def parse? (text : String) : Option Settings := do
  let document ← Toml.parse? text
  ofDocument? document

end PluginWorkshop.Settings
