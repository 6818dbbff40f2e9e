import PluginWorkshop.CommandLog.Entry
import PluginWorkshop.Machine.Basic

/-!
# The command log

The log keeps the last invocation in a file. It is fresh for a while after the file was written; a
stale or unreadable file is removed when it is read. `CommandLog.confirm` lets an invocation pass
that repeats a fresh one, and asks the operator about any other.
-/

namespace PluginWorkshop

/-- A log file and how long its entry stays fresh. -/
structure CommandLog where
  path : Path
  lifetime : Time
  deriving DecidableEq, Repr

/-- How an invocation was decided. -/
inductive Confirmation where
  /-- The same invocation was recorded a short while ago. -/
  | repeated
  /-- The operator said yes. -/
  | prompted
  /-- The operator said no. -/
  | declined
  deriving DecidableEq, Repr

namespace Confirmation

/-- The invocation may go on. -/
def isConfirmed (confirmation : Confirmation) : Bool := confirmation != declined

end Confirmation

namespace CommandLog

def fileName : String := "command-log.json"

/-- Two minutes. -/
def defaultLifetime : Time := 120 * 1000000000

/-- An error of the log: what failed, at which path, and why. -/
def failed (what : String) (path : Path) (e : OsError) : PluginError :=
  .cacheFailed ("Failed to " ++ what ++ " " ++ path ++ ": " ++ e.message)

/-- The log in a directory, which is made if it is not there. -/
def openIn (directory : Path) : Action CommandLog := do
  (Os.makeDirectoryAll directory).orFail (failed "create" directory)
  return ⟨Path.join directory fileName, defaultLifetime⟩

/-- Stores an entry in place of the one there. -/
def record (log : CommandLog) (entry : CommandEntry) : Action Unit :=
  (Os.writeFile log.path entry.render).orFail (failed "write" log.path)

/-- Removes the stored entry, if there is one. -/
def clear (log : CommandLog) : Action Unit :=
  let removal : Os Unit := do
    try Os.removeFile log.path
    catch e => unless e = .notFound do throw e
  removal.orFail (failed "remove" log.path)

/-- The stored entry if it is fresh at a time; anything else in its place is removed. -/
def loadAt (log : CommandLog) (now : Time) : Action (Option CommandEntry) := do
  match Os.entryAt (← get) log.path with
  | .error .notFound => return none
  | .error e => throw (failed "stat" log.path e)
  | .ok _ =>
    let modified ← (Os.modified log.path).orFail (failed "stat" log.path)
    if log.lifetime < now - modified then
      log.clear
      return none
    else
      let text ← (Os.readText log.path).orFail (failed "read" log.path)
      match CommandEntry.parse? text with
      | some entry => return some entry
      | none =>
        log.clear
        return none

/-- The stored entry if it is fresh. -/
def load (log : CommandLog) : Action (Option CommandEntry) := do
  log.loadAt (← get).now

/-- Lets an invocation pass if it repeats a fresh entry, which is used up by that. Any other
invocation is recorded, and the prompt decides; a yes clears the log. -/
def confirm (log : CommandLog) (entry : CommandEntry) (prompt : Action Bool) :
    Action Confirmation := do
  if (← log.load) = some entry then
    log.clear
    return .repeated
  else
    log.record entry
    if ← prompt then
      log.clear
      return .prompted
    else return .declined

end CommandLog

/-- Puts a question to the operator, whose answer is given, and records it. -/
def ask (question : String) (answer : Except PluginError Bool) : Action Bool := do
  modify fun machine => { machine with questions := machine.questions ++ [question] }
  match answer with
  | .ok yes => return yes
  | .error e => throw e

end PluginWorkshop
