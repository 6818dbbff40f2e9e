import PluginWorkshop.Machine.OsError
import PluginWorkshop.Report.Format
import PluginWorkshop.Text.Blank

/-!
# Settings

What the operator may set: the output format and the log level used where none is asked for, and how
Composer and WP-CLI are called. Every setting has a key and can be read and set as text. Only
settings without a flaw (`Settings.flaw?`) are stored and used.
-/

namespace PluginWorkshop

open Text

/-- The settings of the program. -/
structure Settings where
  /-- The name of the output format used where none is asked for. -/
  defaultFormat : String
  logLevel : String
  composerBinary : String
  /-- The arguments with which Composer installs dependencies. -/
  installArgs : List String
  wpBinary : String
  deriving DecidableEq, Repr

/-- Names one of the settings. -/
inductive SettingKey where
  | defaultFormat
  | logLevel
  | composerBinary
  | installArgs
  | wpBinary
  deriving DecidableEq, Repr

namespace SettingKey

def all : List SettingKey := [defaultFormat, logLevel, composerBinary, installArgs, wpBinary]

def name : SettingKey → String
  | defaultFormat => "general.default_format"
  | logLevel => "general.log_level"
  | composerBinary => "composer.binary"
  | installArgs => "composer.install_args"
  | wpBinary => "wp.binary"

def parse? (text : String) : Option SettingKey := all.find? (·.name == text)

end SettingKey

/-- Why settings cannot be used, read or stored. -/
inductive SettingsError where
  | unknownFormat (name : String)
  | unknownLevel (name : String)
  /-- The name of a program is blank. -/
  | blankBinary (key : SettingKey)
  | noInstallArgs
  /-- There is no setting of this name to be set. -/
  | unknownKey (name : String)
  /-- There is no setting of this name to be read. -/
  | noSuchKey (name : String)
  | unreadable (cause : OsError)
  /-- The file holds no settings. -/
  | malformed
  /-- The directory of the file cannot be made. -/
  | noDirectory (cause : OsError)
  | unwritable (cause : OsError)
  deriving DecidableEq, Repr

namespace Settings

/-- The settings where nothing is set. -/
def standard : Settings where
  defaultFormat := OutputFormat.standard.name
  logLevel := "info"
  composerBinary := "composer"
  installArgs := ["update"]
  wpBinary := "wp"

instance : Inhabited Settings := ⟨standard⟩

/-- The names of the log levels. -/
def logLevels : List String := ["trace", "debug", "info", "warn", "error"]

/-- The names of the output formats. -/
def formats : List String := OutputFormat.all.map OutputFormat.name

/-- The first reason for which the settings cannot be used. -/
def flaw? (settings : Settings) : Option SettingsError :=
  if !formats.contains settings.defaultFormat then some (.unknownFormat settings.defaultFormat)
  else if !logLevels.contains settings.logLevel then some (.unknownLevel settings.logLevel)
  else if isAllBlank settings.composerBinary.toList then some (.blankBinary .composerBinary)
  else if settings.installArgs.isEmpty then some .noInstallArgs
  else if isAllBlank settings.wpBinary.toList then some (.blankBinary .wpBinary)
  else none

/-- Refuses settings that cannot be used. -/
def check (settings : Settings) : Except SettingsError Unit :=
  match settings.flaw? with
  | none => .ok ()
  | some flaw => .error flaw

/-- The arguments in a text: what stands between commas, without blanks around it, as far as there
is anything. -/
def argsOfText (text : String) : List String :=
  (((splitOn ',' text.toList).map trim).filter (!·.isEmpty)).map String.ofList

/-- A setting as text. -/
def get (settings : Settings) : SettingKey → String
  | .defaultFormat => settings.defaultFormat
  | .logLevel => settings.logLevel
  | .composerBinary => settings.composerBinary
  | .installArgs => ", ".intercalate settings.installArgs
  | .wpBinary => settings.wpBinary

/-- The settings with one of them set to what a text says. -/
def set (settings : Settings) (key : SettingKey) (text : String) : Settings :=
  match key with
  | .defaultFormat => { settings with defaultFormat := text }
  | .logLevel => { settings with logLevel := text }
  | .composerBinary => { settings with composerBinary := text }
  | .installArgs => { settings with installArgs := argsOfText text }
  | .wpBinary => { settings with wpBinary := text }

/-- The setting of a name as text. -/
def getNamed? (settings : Settings) (name : String) : Option String :=
  (SettingKey.parse? name).map settings.get

/-- The settings with the one of a name set to what a text says. -/
def setNamed (settings : Settings) (name text : String) : Except SettingsError Settings :=
  match SettingKey.parse? name with
  | some key => .ok (settings.set key text)
  | none => .error (.unknownKey name)

end Settings

namespace SettingsError

/-- The list of keys below a message. -/
def keyList : String :=
  "\n\nAvailable keys:\n" ++ "\n".intercalate (SettingKey.all.map fun key => "- " ++ key.name)

/-- What went wrong. -/
def message : SettingsError → String
  | unknownFormat name =>
    "invalid default_format '" ++ name ++ "', must be one of: " ++ ", ".intercalate Settings.formats
  | unknownLevel name =>
    "invalid log_level '" ++ name ++ "', must be one of: " ++ ", ".intercalate Settings.logLevels
  | blankBinary key => key.name ++ " must not be empty"
  | noInstallArgs => SettingKey.installArgs.name ++ " must name at least one argument"
  | unknownKey name => "unknown configuration key: " ++ name ++ keyList
  | noSuchKey name => "configuration key '" ++ name ++ "' not found" ++ keyList
  | unreadable _ => "failed to read config file"
  | malformed => "failed to parse config file"
  | noDirectory _ => "failed to create config directory"
  | unwritable _ => "failed to write config file"

/-- The messages of what lies below the error. -/
def causes : SettingsError → List String
  | unreadable cause | noDirectory cause | unwritable cause => [cause.message]
  | _ => []

end SettingsError

end PluginWorkshop
