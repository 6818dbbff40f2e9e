import PluginWorkshop.Machine.Basic
import PluginWorkshop.Settings.Basic

/-!
# Failures of commands

A command fails with an error of the project or of the settings, possibly below the task it was
carrying out. The exit code is that of the error of the project, wherever it stands.
-/

namespace PluginWorkshop

/-- Why a command failed. -/
inductive Failure where
  | project (e : PluginError)
  | settings (e : SettingsError)
  /-- Something failed while a task was carried out. -/
  | within (task : String) (cause : Failure)
  deriving DecidableEq, Repr

namespace Failure

/-- What failed. -/
def message : Failure → String
  | project e => e.message
  | settings e => e.message
  | within task _ => "failed to " ++ task

/-- All messages, from the outermost one down. -/
def messages : Failure → List String
  | project e => e.message :: e.causes
  | settings e => e.message :: e.causes
  | within task cause => ("failed to " ++ task) :: cause.messages

/-- All messages on one line. -/
def chain (failure : Failure) : String := ": ".intercalate failure.messages

/-- The exit code of the program. -/
def exitCode : Failure → ExitCode
  | project e => .ofError e
  | settings _ => .ofCategory .other
  | within _ cause => cause.exitCode

end Failure

/-- A command at work on a machine; its result is what it prints. -/
abbrev Task := EStateM Failure Machine

/-- An operation on a project as part of a command. -/
def Action.asTask (operation : Action α) : Task α := EStateM.adaptExcept .project operation

/-- An operation on the project that carries out a named task. -/
def Action.within (task : String) (operation : Action α) : Task α :=
  EStateM.adaptExcept (fun e => .within task (.project e)) operation

end PluginWorkshop
