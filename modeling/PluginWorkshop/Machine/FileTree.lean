/-!
# File trees

A directory with everything below it, as a value. A place in a tree is the list of names that lead
to it. Entries are looked up, put and removed below an existing directory; anywhere else `put` and
`remove` change nothing.
-/

namespace PluginWorkshop

/-- A point in time, in nanoseconds. -/
abbrev Time := Int

/-- The names that lead from the root of a tree to a place in it. -/
abbrev Place := List String

/-- A file, or a directory with its entries. -/
inductive FileTree where
  | file (content : ByteArray) (modified : Time)
  | directory (entries : List (String × FileTree))

instance : Inhabited FileTree := ⟨.directory []⟩

/-- The entries of a directory under their names. -/
abbrev Entries := List (String × FileTree)

namespace Entries

def get? (name : String) : Entries → Option FileTree
  | [] => none
  | (n, entry) :: entries => if n = name then some entry else get? name entries

/-- Puts an entry under a name, in place of the one there. -/
def put (name : String) (entry : FileTree) : Entries → Entries
  | [] => [(name, entry)]
  | (n, e) :: entries =>
    if n = name then (n, entry) :: entries else (n, e) :: put name entry entries

/-- The entries without the one under a name. -/
def remove (name : String) : Entries → Entries
  | [] => []
  | (n, e) :: entries => if n = name then entries else (n, e) :: remove name entries

/-- Changes the entry under a name. -/
def modify (name : String) (change : FileTree → FileTree) : Entries → Entries
  | [] => []
  | (n, e) :: entries =>
    if n = name then (n, change e) :: entries else (n, e) :: modify name change entries

end Entries

namespace FileTree

def isFile : FileTree → Bool
  | file _ _ => true
  | directory _ => false

def isDirectory : FileTree → Bool
  | file _ _ => false
  | directory _ => true

/-- The entries of a directory; a file has none. -/
def entries : FileTree → Entries
  | file _ _ => []
  | directory entries => entries

/-- What stands at a place. -/
def get? : Place → FileTree → Option FileTree
  | [], tree => some tree
  | name :: place, tree => (Entries.get? name tree.entries).bind (get? place)

/-- Changes the entries of the directory at a place. -/
def modifyEntries (change : Entries → Entries) : Place → FileTree → FileTree
  | _, file content modified => file content modified
  | [], directory entries => directory (change entries)
  | name :: place, directory entries =>
    directory (Entries.modify name (modifyEntries change place) entries)

/-- Puts an entry under a name into the directory at a place. -/
def put (tree : FileTree) (place : Place) (name : String) (entry : FileTree) : FileTree :=
  tree.modifyEntries (Entries.put name entry) place

/-- Removes the entry under a name from the directory at a place. -/
def remove (tree : FileTree) (place : Place) (name : String) : FileTree :=
  tree.modifyEntries (Entries.remove name) place

/-- Puts an entry at a place, with directories on the way to it. -/
def graft (tree : FileTree) : Place → FileTree → FileTree
  | [], entry => entry
  | name :: place, entry =>
    let below := (Entries.get? name tree.entries).getD (.directory [])
    .directory (Entries.put name (graft below place entry) tree.entries)

mutual

/-- Every place below the root of a tree with the content of the file there, or nothing for a
directory. -/
def contents : FileTree → List (Place × Option ByteArray)
  | file _ _ => []
  | directory entries => contentsOf entries

def contentsOf : List (String × FileTree) → List (Place × Option ByteArray)
  | [] => []
  | (name, entry) :: entries =>
    let self := match entry with
      | file content _ => some content
      | directory _ => none
    ([name], self) :: (contents entry).map (fun (place, content) => (name :: place, content)) ++
      contentsOf entries

end

end FileTree

end PluginWorkshop
