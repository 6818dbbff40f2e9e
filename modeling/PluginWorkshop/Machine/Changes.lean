import PluginWorkshop.Machine.FileTree

/-!
# Changes of file trees

The steps that make one file tree into another (`FileTree.changesTo`), in an order in which they can
be taken: a directory is made before what is in it and removed after it, and what has to go from a
place goes before something else is put there.
-/

namespace PluginWorkshop

/-- A step from one file tree to another. -/
inductive Change where
  | makeDirectory (place : Place)
  /-- Makes a file where there is nothing. -/
  | createFile (place : Place) (content : ByteArray)
  /-- Replaces the content of a file. -/
  | writeFile (place : Place) (content : ByteArray)
  | removeFile (place : Place)
  /-- Removes an empty directory. -/
  | removeDirectory (place : Place)

namespace FileTree

mutual

/-- The steps that make an entry where there is nothing. -/
def creation (place : Place) : FileTree → List Change
  | file content _ => [.createFile place content]
  | directory entries => .makeDirectory place :: creationIn place entries

/-- The steps that make entries in a directory. -/
def creationIn (place : Place) : List (String × FileTree) → List Change
  | [] => []
  | (name, entry) :: entries => creation (place ++ [name]) entry ++ creationIn place entries

end

mutual

/-- The steps that remove an entry. -/
def removal (place : Place) : FileTree → List Change
  | file _ _ => [.removeFile place]
  | directory entries => removalIn place entries ++ [.removeDirectory place]

/-- The steps that remove entries from a directory. -/
def removalIn (place : Place) : List (String × FileTree) → List Change
  | [] => []
  | (name, entry) :: entries => removal (place ++ [name]) entry ++ removalIn place entries

end

/-- The entries of a directory whose names are gone. -/
def goneFrom (before after : Entries) : Entries :=
  before.filter fun (name, _) => (Entries.get? name after).isNone

mutual

/-- The steps from one entry at a place to another. A file whose content stays is written again if
its time has changed. -/
def changesAt (place : Place) (before : FileTree) : FileTree → List Change
  | file content modified =>
    match before with
    | file oldContent oldModified =>
      if oldContent = content ∧ oldModified = modified then [] else [.writeFile place content]
    | directory entries => removal place (.directory entries) ++ [.createFile place content]
  | directory entries =>
    match before with
    | file _ _ => .removeFile place :: .makeDirectory place :: creationIn place entries
    | directory oldEntries =>
      removalIn place (goneFrom oldEntries entries) ++ changesIn place oldEntries entries

/-- The steps for the entries of a directory, which had other entries before. -/
def changesIn (place : Place) (before : Entries) : List (String × FileTree) → List Change
  | [] => []
  | (name, entry) :: entries =>
    let below := place ++ [name]
    let steps := match Entries.get? name before with
      | some old => changesAt below old entry
      | none => creation below entry
    steps ++ changesIn place before entries

end

/-- The steps from one tree to another. -/
def changesTo (before after : FileTree) : List Change := changesAt [] before after

end FileTree

end PluginWorkshop
