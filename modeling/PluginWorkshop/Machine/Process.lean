import PluginWorkshop.Machine.Basic

/-!
# Processes and installers

Installing dependencies and generating the skeleton of a plugin are left to other programs. What a
program does to the files is given by a `Runner`; that it was started is recorded on the machine.
-/

namespace PluginWorkshop

/-- What running a command in a directory does to the files, and whether it succeeds. -/
abbrev Runner := (directory : Path) → (command : List String) → FileTree →
  Except PluginError Unit × FileTree

/-- Runs a command in a directory and records the call. -/
def runProcess (runner : Runner) (directory : Path) (command : List String) : Action Unit :=
  fun machine =>
    let machine := { machine with
      calls := machine.calls ++ [Call.mk directory command machine.tree] }
    match runner directory command machine.tree with
    | (.ok (), tree) => .ok () { machine with tree }
    | (.error e, tree) => .error e { machine with tree }

inductive InstallOutcome where
  | installed
  | skipped
  deriving DecidableEq, Repr

namespace InstallOutcome

def name : InstallOutcome → String
  | installed => "installed"
  | skipped => "skipped"

end InstallOutcome

/-- Brings the installed dependencies of a project in line with its manifest. -/
inductive Installer where
  /-- Installs nothing. -/
  | skip
  /-- Runs a command in the directory of the project. -/
  | command (runner : Runner) (words : List String)

namespace Installer

/-- The installer that runs Composer. -/
def composer (runner : Runner) (binary : String) (args : List String) : Installer :=
  .command runner (binary :: args)

/-- Composer's default arguments. -/
def defaultArgs : List String := ["update"]

def defaultBinary : String := "composer"

/-- Installs the dependencies of the project in a directory. -/
def install (installer : Installer) (directory : Path) : Action InstallOutcome :=
  match installer with
  | skip => return .skipped
  | command runner words => do
    runProcess runner directory words
    return .installed

end Installer

/-- How the system answers the attempt to run a program. -/
inductive ProcessStatus where
  /-- The program could not be started. -/
  | notStarted (cause : OsError)
  | exited (status : Nat)
  /-- The program was ended by a signal. -/
  | killed
  deriving DecidableEq, Repr

/-- The runner that starts programs; `attempt` answers for the system. -/
def systemRunner (attempt : Path → List String → ProcessStatus) : Runner :=
  fun directory command tree =>
    let failed (message : String) : Except PluginError Unit × FileTree :=
      (.error (.processFailed (" ".intercalate command) message), tree)
    if command.isEmpty then (.error (.invalidArgument "empty command"), tree)
    else
      match attempt directory command with
      | .notStarted cause => failed cause.message
      | .exited 0 => (.ok (), tree)
      | .exited status => failed ("exit status " ++ toString status)
      | .killed => failed "terminated by signal"

end PluginWorkshop
