import PluginWorkshop.CommandLine.Completion
import PluginWorkshop.CommandLine.Failure
import PluginWorkshop.CommandLine.Invocation
import PluginWorkshop.CommandLog.Basic
import PluginWorkshop.Report.Encode
import PluginWorkshop.Report.Format
import PluginWorkshop.Settings.File

/-!
# Carrying out commands

A command works on the machine and gives the text that it prints. Starting a plugin is let pass by
the command log (`startConfirmed`).
-/

namespace PluginWorkshop

/-- How results are printed. -/
structure Style where
  format : OutputFormat
  coloured : Bool
  deriving DecidableEq, Repr

namespace Style

/-- A report below a line that says what was done. -/
def done (style : Style) (message : String) (report : Json) : String :=
  Report.printed style.format style.coloured message report

/-- A report on lines of its own. -/
def plain (style : Style) (report : Json) : String :=
  Report.render style.format style.coloured report ++ "\n"

end Style

namespace Execution

/-! ## Projects -/

/-- Makes a class. -/
def make (style : Style) (request : ClassRequest) (root : Path) : Task String := do
  let report ← (Project.make root request).within ("make '" ++ request.classPath ++ "'")
  let message := "Created " ++ report.kind.label ++ " " ++ report.className ++ "."
  return style.done message report.toJson

/-- Adds the integration of a name. -/
def add (style : Style) (installer : Installer) (name : String) (root : Path) : Task String := do
  let integration ← (MonadExcept.ofExcept (Integration.parse name) : Action Integration).asTask
  let report ← (Project.add root integration installer).within
    ("add '" ++ integration.name ++ "'")
  return style.done ("Added " ++ integration.name ++ ".") report.toJson

/-- Removes the integration of a name. -/
def remove (style : Style) (installer : Installer) (name : String) (root : Path) :
    Task String := do
  let integration ← (MonadExcept.ofExcept (Integration.parse name) : Action Integration).asTask
  let report ← (Project.remove root integration installer).within
    ("remove '" ++ integration.name ++ "'")
  return style.done ("Removed " ++ integration.name ++ ".") report.toJson

/-! ## Starting a plugin -/

/-- The other programs that starting a plugin needs, and the prompt. -/
structure StartTools where
  runner : Runner
  installer : Installer
  wpBinary : String
  prompt : StartOptions → Action Bool

/-- What is printed when the operator declines. -/
def cancelled (style : Style) : String :=
  Report.tint style.coloured .notice "Cancelled." ++
    "\nRun the same command again within two minutes to confirm.\n"

/-- Whether the start of a plugin may go on: at once if that is asked for, and otherwise as the log
and the prompt decide. -/
def confirmStart (tools : StartTools) (log : CommandLog) (options : StartOptions) (directory : Path)
    (yes : Bool) : Action Confirmation :=
  if yes then return .prompted
  else log.confirm (options.commandEntry directory) (tools.prompt options)

/-- Starts a plugin below a directory, once that is confirmed. -/
def startConfirmed (style : Style) (tools : StartTools) (log : CommandLog) (options : StartOptions)
    (directory : Path) (yes : Bool) : Task String := do
  let confirmation ← (confirmStart tools log options directory yes).asTask
  if confirmation.isConfirmed then
    let report ← (Project.start directory options tools.wpBinary tools.runner
      tools.installer).within "generate plugin"
    return style.done ("Plugin '" ++ report.slug ++ "' generated.") report.toJson
  else return cancelled style

/-! ## Settings -/

/-- An operation on the settings as part of a command. -/
def onSettings (operation : SettingsAction α) : Task α := EStateM.adaptExcept .settings operation

/-- A report on the creation of the settings file. -/
def creationReport (created : Bool) (message : String) (path : Path) : Json :=
  .object [("created", .bool created), ("message", .string message), ("path", .string path)]

/-- A report on one setting. -/
def settingReport (key value : String) : Json :=
  .object [("key", .string key), ("value", .string value)]

/-- Carries out a command on the settings in a file. -/
def settings (style : Style) (path : Path) : SettingsCommand → Task String
  | .create => do
    if Os.fileExists (← get) path then
      return style.plain (creationReport false "configuration file already exists" path)
    else
      onSettings (Settings.save path .standard)
      return style.done "Configuration initialized."
        (creationReport true "configuration file created with default values" path)
  | .show => do
    let settings ← onSettings (Settings.load path)
    return style.plain settings.toJson
  | .get key => do
    let settings ← onSettings (Settings.load path)
    match settings.getNamed? key with
    | none => throw (.settings (.noSuchKey key))
    | some value => return style.plain (settingReport key value)
  | .set key value => do
    onSettings do
      let settings ← Settings.load path
      let settings ← MonadExcept.ofExcept (settings.setNamed key value)
      Settings.save path settings
    return style.done ("Set '" ++ key ++ "' to '" ++ value ++ "'.") (settingReport key value)
  | .locate => return path ++ "\n"

end Execution

end PluginWorkshop
