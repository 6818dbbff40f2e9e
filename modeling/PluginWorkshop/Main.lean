import PluginWorkshop.CommandLine.Program
import PluginWorkshop.CommandLine.Synopsis
import PluginWorkshop.Machine.Changes
import Std.Time.DateTime.Timestamp

/-!
# The program on a system

A run works on a copy of the files that its command can look at, and what it has changed in the copy
is then changed on the disk. Only the content of files that a command may read is copied. Other
programs are not started from here: a command that needs one fails as it does where that program is
not installed, and nobody is asked.
-/

namespace PluginWorkshop.Disk

/-! ## Copying files -/

/-- How deep directories are copied. -/
def depthLimit : Nat := 40

/-- Whether the content of a file of this name is copied. -/
def isCopied (path : Path) : Bool := [".json", ".php", ".toml"].any (path.endsWith ·)

/-- What stands at a path, a directory without its entries. -/
def standing? (path : Path) : IO (Option FileTree) := do
  try
    let metadata ← (← IO.FS.realPath path).metadata
    if metadata.type == .dir then return some (.directory [])
    let content ← if isCopied path then IO.FS.readBinFile path else pure .empty
    let time := metadata.modified
    return some (.file content (time.sec * 1000000000 + time.nsec.toNat))
  catch _ => return none

/-- A copy of what stands at a path, down to a depth. A link to a directory counts as an empty
directory. -/
def copy? : (depth : Nat) → Path → IO (Option FileTree)
  | 0, path => standing? path
  | depth + 1, path => do
    match ← standing? path with
    | some (.directory _) =>
      let mut entries : Entries := []
      for entry in ← (← IO.FS.realPath path).readDir do
        let below := Path.join path entry.fileName
        let isLink := (← entry.path.symlinkMetadata).type == .symlink
        if let some found ← if isLink then standing? below else copy? depth below then
          entries := (entry.fileName, found) :: entries
      return some (.directory entries)
    | other => return other

/-- The absolute path of a place. -/
def pathOf (place : Place) : Path := "/" ++ "/".intercalate place

/-- The place of a path, from a working directory on. -/
def placeOf (cwd : Place) (path : Path) : Place :=
  (Path.pieces path).foldl (fun place piece =>
    if Path.isInert piece then place
    else if piece = ".." then place.dropLast
    else place ++ [piece]) (if Path.isAbsolute path then [] else cwd)

/-- The tree with a copy of what stands at a place and of the directories that lead there. -/
def addCopy (tree : FileTree) (place : Place) : IO FileTree := do
  let mut tree := tree
  for length in [1:place.length] do
    let above := place.take length
    if (tree.get? above).isNone then
      match ← standing? (pathOf above) with
      | some entry => tree := tree.graft above entry
      | none => return tree
  match ← copy? depthLimit (pathOf place) with
  | some entry => return tree.graft place entry
  | none => return tree

/-! ## Changing files -/

/-- Takes a step on the disk. A file that is made is never put over another. -/
def apply : Change → IO Unit
  | .makeDirectory place => IO.FS.createDir (pathOf place)
  | .createFile place content => do
    (← IO.FS.Handle.mk (pathOf place) .writeNew).write content
  | .writeFile place content => IO.FS.writeBinFile (pathOf place) content
  | .removeFile place => IO.FS.removeFile (pathOf place)
  | .removeDirectory place => IO.FS.removeDir (pathOf place)

end PluginWorkshop.Disk

namespace PluginWorkshop.Program

/-- A directory named by a variable, if that is an absolute path, or else one below the home
directory. -/
def homeOf (variableName fallback : String) : IO Path := do
  match ← IO.getEnv variableName with
  | some path => if Path.isAbsolute path then return path else below
  | none => below
where
  /-- The directory below the home directory. -/
  below : IO Path := return Path.join ((← IO.getEnv "HOME").getD "/") fallback

/-- Whether output is coloured: as the variables say, or else if a terminal shows it. -/
def wantsColour : IO Bool := do
  let isOn (value : Option String) : Bool := value.any (· != "0")
  if isOn (← IO.getEnv "CLICOLOR_FORCE") then return true
  if (← IO.getEnv "NO_COLOR").isSome then return false
  if (← IO.getEnv "CLICOLOR") == some "0" then return false
  (← IO.getStdout).isTty

/-- What the program finds around it on this system. -/
def systemEnvironment : IO Environment := return {
  settingsHome := ← homeOf "XDG_CONFIG_HOME" ".config"
  cacheHome := ← homeOf "XDG_CACHE_HOME" ".cache"
  runner := systemRunner fun _ _ => .notStarted .notFound
  coloured := ← wantsColour }

/-- A machine with a copy of the files that the arguments let the program look at. -/
def systemMachine (environment : Environment) (arguments : List String) : IO Machine := do
  let cwd := Disk.placeOf [] (← IO.currentDir).toString
  let paths :=
    match Invocation.parse arguments with
    | .ok invocation => reach environment invocation.command
    | .error _ => []
  let tree ← (paths.map (Disk.placeOf cwd)).foldlM Disk.addCopy (.directory [])
  let now := (← Std.Time.Timestamp.now).toNanosecondsSinceUnixEpoch.toInt
  return { Machine.ofTree tree with cwd, now }

/-- A line for the operator, below a coloured label. -/
def complain (coloured : Bool) (colour : Report.Colour) (label message : String) : IO Unit :=
  IO.eprintln (Report.tint coloured colour label ++ " " ++ message)

/-- Shows how a run ended and gives its exit code. -/
def conclude (coloured : Bool) : Outcome → IO ExitCode
  | .usage issue => do
    match issue with
    | .helpWanted => IO.print Invocation.spec.overview
    | .versionWanted => IO.print (usageOutput issue)
    | _ =>
      complain coloured .error "error:" issue.message
      IO.eprint Invocation.spec.overview
    return usageExit issue
  | .success output warning => do
    warn warning
    IO.print output
    return .success
  | .failure exit message warning => do
    warn warning
    complain coloured .error "Error:" message
    return exit
where
  /-- Says why the settings are left out of account. -/
  warn (warning : Option String) : IO Unit := do
    if let some message := warning then
      complain coloured .warning "Warning:" ("ignoring config file: " ++ message)

/-- Runs the program on this system. -/
def onSystem (arguments : List String) : IO ExitCode := do
  let environment ← systemEnvironment
  let machine ← systemMachine environment arguments
  let (outcome, changed) := run environment arguments machine
  (machine.tree.changesTo changed.tree).forM Disk.apply
  conclude environment.coloured outcome

end PluginWorkshop.Program

def main (arguments : List String) : IO UInt32 := do
  let exit ← PluginWorkshop.Program.onSystem arguments
  return exit.code.toNat.toUInt32
