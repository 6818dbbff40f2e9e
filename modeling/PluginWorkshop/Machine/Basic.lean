import PluginWorkshop.Machine.FileTree
import PluginWorkshop.Machine.Path

/-!
# The machine

What the program works on: a file tree, a working directory, the clock, and a record of the
processes started and the questions asked. A file operation takes a path as it was written and is
refused for the reasons for which a Unix system refuses it. There are no symbolic links, and all
files can be read.

Writing can fail for reasons that do not lie in the tree. `Machine.faults` lists, for each writing
step to come, the error it fails with, if it does; steps beyond the list succeed.
-/

namespace PluginWorkshop

/-- A process that was started. -/
structure Call where
  directory : Path
  command : List String
  /-- The files as they were when the call was made. -/
  found : FileTree

/-- The state of the world around the program. -/
structure Machine where
  tree : FileTree
  /-- The working directory. -/
  cwd : Place
  now : Time
  faults : List (Option OsError)
  /-- The calls made so far, in order. -/
  calls : List Call
  /-- The questions put to the operator so far, in order. -/
  questions : List String

/-- An operation of the system on the machine. -/
abbrev Os := EStateM OsError Machine

/-- An operation of the program on the machine. -/
abbrev Action := EStateM PluginError Machine

namespace Machine

/-- A machine with these files on which nothing fails. -/
def ofTree (tree : FileTree) : Machine := ⟨tree, [], 0, [], [], []⟩

end Machine

namespace Os

/-- The operation with its error turned into one of the program. -/
def orFail (operation : Os α) (wrap : OsError → PluginError) : Action α :=
  EStateM.adaptExcept wrap operation

/-! ## Finding places -/

/-- The most bytes of a name. -/
def maxNameBytes : Nat := 255

/-- Bytes at which a path is too long. -/
def pathBytesLimit : Nat := 4096

/-- Follows the pieces of a path from a place on. -/
def walk (tree : FileTree) (here : Place) : List String → Except OsError Place
  | [] => .ok here
  | piece :: pieces =>
    match tree.get? here with
    | none => .error .notFound
    | some (.file _ _) => .error .notADirectory
    | some (.directory entries) =>
      if Path.isInert piece then walk tree here pieces
      else if piece = ".." then walk tree here.dropLast pieces
      else if maxNameBytes < piece.utf8ByteSize then .error .nameTooLong
      else
        match Entries.get? piece entries with
        | none => .error .notFound
        | some _ => walk tree (here ++ [piece]) pieces

/-- The text of the path is one that the system takes. -/
def checkPath (path : Path) : Except OsError Unit :=
  if path.toList.contains '\x00' then .error .nulInPath
  else if path.isEmpty then .error .notFound
  else if pathBytesLimit ≤ path.utf8ByteSize then .error .nameTooLong
  else .ok ()

/-- The place that a path starts from. -/
def startOf (machine : Machine) (path : Path) : Place :=
  if Path.isAbsolute path then [] else machine.cwd

/-- The place of what a path names. -/
def locate (machine : Machine) (path : Path) : Except OsError Place := do
  checkPath path
  walk machine.tree (startOf machine path) (Path.pieces path)

/-- The entry that a path names. -/
def entryAt (machine : Machine) (path : Path) : Except OsError FileTree := do
  let place ← locate machine path
  match machine.tree.get? place with
  | some entry => return entry
  | none => throw .notFound

/-- The last piece of a path that names an entry to be made, replaced or removed. -/
inductive LastPiece where
  /-- A name, and whether a slash follows it. -/
  | name (name : String) (slash : Bool)
  /-- A single dot, or the root. -/
  | dot
  | dotDot
  deriving DecidableEq, Repr

/-- The directory in which a path names an entry, and the name. -/
def target (machine : Machine) (path : Path) : Except OsError (Place × LastPiece) := do
  checkPath path
  let backwards := (Path.pieces path).reverse
  match backwards.dropWhile (· == "") with
  | [] => return ([], .dot)
  | last :: before =>
    let place ← walk machine.tree (startOf machine path) before.reverse
    match machine.tree.get? place with
    | none => throw .notFound
    | some (.file _ _) => throw .notADirectory
    | some (.directory _) =>
      if last = "." then return (place, .dot)
      else if last = ".." then return (place, .dotDot)
      else if maxNameBytes < last.utf8ByteSize then throw .nameTooLong
      else return (place, .name last (backwards.head? == some ""))

/-! ## Looking -/

/-- An operation that only looks at the machine. -/
def look (f : Machine → Except OsError α) : Os α := fun machine =>
  match f machine with
  | .ok result => .ok result machine
  | .error e => .error e machine

def fileExists (machine : Machine) (path : Path) : Bool := (entryAt machine path).toBool

def isFile (machine : Machine) (path : Path) : Bool :=
  match entryAt machine path with
  | .ok entry => entry.isFile
  | .error _ => false

def isDirectory (machine : Machine) (path : Path) : Bool :=
  match entryAt machine path with
  | .ok entry => entry.isDirectory
  | .error _ => false

/-- The absolute path without dots of what a path names. -/
def canonical (machine : Machine) (path : Path) : Except OsError Path :=
  (locate machine path).map fun place => "/" ++ "/".intercalate place

/-- The text of a file. -/
def readText (path : Path) : Os String := look fun machine => do
  match ← entryAt machine path with
  | .directory _ => throw .isADirectory
  | .file content _ =>
    match String.fromUTF8? content with
    | some text => return text
    | none => throw .invalidText

/-- The time at which an entry was last written; for a directory, now. -/
def modified (path : Path) : Os Time := look fun machine => do
  match ← entryAt machine path with
  | .directory _ => return machine.now
  | .file _ modified => return modified

/-! ## Writing -/

/-- A step that writes: it fails with the next fault, if that is one. -/
def writing (operation : Os α) : Os α := fun machine =>
  match machine.faults with
  | [] => operation machine
  | none :: faults => operation { machine with faults }
  | some e :: faults => .error e { machine with faults }

/-- Changes the file tree. -/
def modifyTree (change : FileTree → FileTree) : Os Unit :=
  modify fun machine => { machine with tree := change machine.tree }

/-- Makes a directory. -/
def makeDirectory (path : Path) : Os Unit := writing do
  match ← look (target · path) with
  | (place, .name name _) =>
    if ((← get).tree.get? (place ++ [name])).isSome then throw .alreadyExists
    modifyTree (·.put place name (.directory []))
  | _ => throw .alreadyExists

/-- Makes the first directory of a list; where its parent is not there, the rest of the list is
made before it. A directory that is there is as good as one made. -/
def makeDirectories : List Path → Os Unit
  | [] => throw .notFound
  | path :: parents => do
    try makeDirectory path
    catch e =>
      if e = .notFound then
        makeDirectories parents
        try makeDirectory path
        catch e => unless isDirectory (← get) path do throw e
      else unless isDirectory (← get) path do throw e

/-- Makes a directory with the parents that are not there. -/
def makeDirectoryAll (path : Path) : Os Unit := do
  if path.isEmpty then return
  makeDirectories (path :: (Path.parents path).filter (!·.isEmpty))

/-- Makes an empty file where there is nothing. -/
def createFile (path : Path) : Os Unit := writing do
  match ← look (target · path) with
  | (place, .name name slash) =>
    if slash then throw .isADirectory
    if ((← get).tree.get? (place ++ [name])).isSome then throw .alreadyExists
    modifyTree (·.put place name (.file .empty (← get).now))
  | _ => throw .alreadyExists

/-- Puts content into a file, which is made if it is not there. -/
def writeFile (path : Path) (content : String) : Os Unit := writing do
  match ← look (target · path) with
  | (place, .name name slash) =>
    if slash then throw .isADirectory
    match (← get).tree.get? (place ++ [name]) with
    | some (.directory _) => throw .isADirectory
    | _ => modifyTree (·.put place name (.file content.toUTF8 (← get).now))
  | _ => throw .isADirectory

/-- Flushes a file to the disk. -/
def syncFile : Os Unit := writing (return)

/-- Replaces a file in one step, by way of a new file in the same directory. -/
def replaceFile (path : Path) (content : String) : Os Unit := writing do
  match ← look (target · path) with
  | (place, .name name slash) =>
    if slash then throw .notADirectory
    match (← get).tree.get? (place ++ [name]) with
    | some (.directory _) => throw .isADirectory
    | _ => modifyTree (·.put place name (.file content.toUTF8 (← get).now))
  | _ => throw .isADirectory

/-! ## Removing -/

/-- Removes a file. -/
def removeFile (path : Path) : Os Unit := do
  match ← look (target · path) with
  | (place, .name name slash) =>
    match (← get).tree.get? (place ++ [name]) with
    | none => throw .notFound
    | some (.directory _) => throw .isADirectory
    | some (.file _ _) =>
      if slash then throw .notADirectory
      modifyTree (·.remove place name)
  | _ => throw .isADirectory

/-- Removes an empty directory. -/
def removeDirectory (path : Path) : Os Unit := do
  match ← look (target · path) with
  | (place, .name name _) =>
    match (← get).tree.get? (place ++ [name]) with
    | none => throw .notFound
    | some (.file _ _) => throw .notADirectory
    | some (.directory (_ :: _)) => throw .directoryNotEmpty
    | some (.directory []) => modifyTree (·.remove place name)
  | _ => throw .directoryNotEmpty

end Os

end PluginWorkshop
