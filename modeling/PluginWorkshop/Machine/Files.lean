import PluginWorkshop.Machine.Basic

/-!
# Files of a project

Reading, replacing and removing files, with errors that name the file. A new file is made with the
parents that are missing (`createFile`), never over an existing entry, and all of that is taken back
if what follows fails (`withNewFile`).
-/

namespace PluginWorkshop.Files

/-- The text of a file. -/
def readText (path : Path) : Action String := (Os.readText path).orFail (.readFailed path)

/-- Replaces the content of a file in one step. -/
def replaceFile (path : Path) (content : String) : Action Unit :=
  (Os.replaceFile path content).orFail (.writeFailed path)

/-- Removes a file and says whether it was there. -/
def removeIfExists (path : Path) : Action Bool := do
  let removal : Os Bool := do
    try
      Os.removeFile path
      return true
    catch e => if e = .notFound then return false else throw e
  removal.orFail (.writeFailed path)

/-- The operation, which may fail without notice. -/
def ignoringErrors (operation : Os Unit) : Action Unit := fun machine =>
  match operation machine with
  | .ok _ machine | .error _ machine => .ok () machine

/-- The operation; if it fails, `undo` runs before the error goes on. -/
def orUndo (operation : Action α) (undo : Action Unit) : Action α := do
  try operation
  catch e =>
    undo
    throw e

/-- A file that was made, with the directories that were made for it, the deepest first. -/
structure NewFile where
  path : Path
  directories : List Path
  deriving DecidableEq, Repr

/-- The parents of a path that are not there, the deepest first. -/
def missingParents (machine : Machine) (path : Path) : List Path :=
  (Path.parents path).takeWhile fun parent => !parent.isEmpty && !Os.fileExists machine parent

/-- Removes directories as far as they are empty. -/
def removeDirectories (directories : List Path) : Action Unit :=
  directories.forM fun directory => ignoringErrors (Os.removeDirectory directory)

namespace NewFile

/-- Takes the file and its directories away again. -/
def undo (file : NewFile) : Action Unit := do
  ignoringErrors (Os.removeFile file.path)
  removeDirectories file.directories

end NewFile

/-- Makes an empty file, and its parents as far as they are missing. -/
def openNew (path : Path) : Action Unit := do
  if let some parent := Path.parent? path then
    (Os.makeDirectoryAll parent).orFail (.writeFailed path)
  (Os.createFile path).orFail fun e =>
    if e = .alreadyExists then .targetExists path else .writeFailed path e

/-- Puts the content into a file that was made, and flushes it to the disk. -/
def fillNew (path : Path) (content : String) : Action Unit :=
  let filling : Os Unit := do
    Os.writeFile path content
    Os.syncFile
  filling.orFail (.writeFailed path)

/-- Makes a file with its missing parents. If a step fails, what was made before is removed. -/
def createFile (path : Path) (content : String) : Action NewFile := do
  let file : NewFile := ⟨path, missingParents (← get) path⟩
  orUndo (openNew path) (removeDirectories file.directories)
  orUndo (fillNew path content) file.undo
  return file

/-- Makes a file and goes on; if that fails, the file is taken away again. -/
def withNewFile (path : Path) (content : String) (next : Action α) : Action α := do
  let file ← createFile path content
  orUndo next file.undo

end PluginWorkshop.Files
