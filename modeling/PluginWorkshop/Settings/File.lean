import PluginWorkshop.Machine.Basic
import PluginWorkshop.Machine.Path
import PluginWorkshop.Settings.Document

/-!
# The settings file

Settings without a flaw are read from a file and stored in it. Where there is no file the standard
settings hold.
-/

namespace PluginWorkshop

/-- An operation on the settings of a machine. -/
abbrev SettingsAction := EStateM SettingsError Machine

namespace Settings

/-- The settings in a file, or the standard ones where there is no file. -/
def load (path : Path) : SettingsAction Settings := do
  if Os.fileExists (← getThe Machine) path then
    let text ← EStateM.adaptExcept .unreadable (Os.readText path)
    match parse? text with
    | none => throw .malformed
    | some settings =>
      MonadExcept.ofExcept settings.check
      return settings
  else return standard

/-- Stores settings in a file, for which directories are made. -/
def save (path : Path) (settings : Settings) : SettingsAction Unit := do
  MonadExcept.ofExcept settings.check
  if let some parent := Path.parent? path then
    EStateM.adaptExcept .noDirectory (Os.makeDirectoryAll parent)
  EStateM.adaptExcept .unwritable (Os.writeFile path settings.render)

end Settings

end PluginWorkshop
