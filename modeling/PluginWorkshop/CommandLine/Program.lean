import PluginWorkshop.CommandLine.Execution

/-!
# The program

A run of the program reads the settings and the arguments, carries out the command and ends with an
exit code. Settings that cannot be read are left out of account with a warning, so that they can
still be mended by the program.
-/

namespace PluginWorkshop.Program

open CommandLine

/-- What the program finds around it. -/
structure Environment where
  /-- The directory of settings of all programs. -/
  settingsHome : Path
  /-- The directory of files that may be lost. -/
  cacheHome : Path
  runner : Runner
  coloured : Bool

namespace Environment

/-- The directory of the program below a directory of all programs. -/
def ownDirectory (home : Path) : Path := Path.join home Invocation.programName

def settingsFile (environment : Environment) : Path :=
  Path.join (ownDirectory environment.settingsHome) "config.toml"

def cacheDirectory (environment : Environment) : Path := ownDirectory environment.cacheHome

end Environment

/-- How a run of the program ended. -/
inductive Outcome where
  /-- The arguments were not carried out. -/
  | usage (issue : UsageIssue)
  | success (output : String) (warning : Option String)
  | failure (exit : ExitCode) (message : String) (warning : Option String)
  deriving DecidableEq, Repr

/-- The version of the program. -/
def version : String := "0.1.0"

/-- The line that says which version this is. -/
def versionLine : String := Invocation.programName ++ " " ++ version ++ "\n"

/-- The exit code when the arguments are not carried out. -/
def usageExit : UsageIssue → ExitCode
  | .helpWanted | .versionWanted => .success
  | _ => ⟨2⟩

/-- What is printed on the standard output when the arguments are not carried out. -/
def usageOutput : UsageIssue → String
  | .versionWanted => versionLine
  | _ => ""

/-- The output format: the one asked for, or else the one set. -/
def chooseFormat (asked : Option String) (settings : Settings) :
    Except PluginError OutputFormat :=
  OutputFormat.parse (asked.getD settings.defaultFormat)

/-- The installer that the settings describe. -/
def installerOf (settings : Settings) (runner : Runner) : Installer :=
  .composer runner settings.composerBinary settings.installArgs

/-- The answer to a prompt where there is nobody to ask. -/
def unanswered (options : StartOptions) : Action Bool := do
  let _ ← MonadExcept.ofExcept options.resolvedSlug
  throw (.invalidArgument "confirmation prompt failed (IO error: not a terminal); pass --yes")

/-- Carries out a command. -/
def execute (environment : Environment) (settings : Settings) (style : Style) :
    Command → Task String
  | .make request root => Execution.make style request root
  | .add name root noInstall =>
    Execution.add style (chooseInstaller noInstall) name root
  | .remove name root noInstall =>
    Execution.remove style (chooseInstaller noInstall) name root
  | .start options directory yes => do
    let log ← (CommandLog.openIn environment.cacheDirectory).within "open the command log"
    let tools := {
      runner := environment.runner
      installer := installerOf settings environment.runner
      wpBinary := settings.wpBinary
      prompt := unanswered }
    Execution.startConfirmed style tools log options directory yes
  | .settings command => Execution.settings style environment.settingsFile command
  | .completions shell => return shell.completions Invocation.spec
where
  /-- The installer that the settings describe, unless nothing is to be installed. -/
  chooseInstaller (noInstall : Bool) : Installer :=
    if noInstall then .skip else installerOf settings environment.runner

/-- The settings in force and the warning about those that are not. -/
def loadSettings (path : Path) (machine : Machine) : Settings × Option String :=
  match Settings.load path machine with
  | .ok settings _ => (settings, none)
  | .error e _ => (.standard, some (Failure.settings e).chain)

/-- The files and directories that a command can look at, without those above them. -/
def reach (environment : Environment) : Command → List Path
  | .make _ root | .add _ root _ | .remove _ root _ => [environment.settingsFile, root]
  | .start options directory _ =>
    let log := Path.join environment.cacheDirectory CommandLog.fileName
    let plugin :=
      match options.resolvedSlug with
      | .ok slug => Path.join directory slug
      | .error _ => directory
    [environment.settingsFile, log, plugin]
  | .settings _ | .completions _ => [environment.settingsFile]

/-- Runs the program with its arguments. -/
def run (environment : Environment) (arguments : List String) : StateM Machine Outcome := do
  match Invocation.parse arguments with
  | .error issue => return .usage issue
  | .ok invocation =>
    let (settings, warning) := loadSettings environment.settingsFile (← get)
    match chooseFormat invocation.format settings with
    | .error e => return .failure (.ofCategory .other) e.message warning
    | .ok format =>
      let style := { format, coloured := environment.coloured }
      match execute environment settings style invocation.command (← get) with
      | .ok output machine =>
        set machine
        return .success output warning
      | .error failure machine =>
        set machine
        return .failure failure.exitCode failure.chain warning

end PluginWorkshop.Program
