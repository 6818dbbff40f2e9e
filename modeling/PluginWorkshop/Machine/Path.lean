import PluginWorkshop.Error
import PluginWorkshop.Text.Split

/-!
# Paths as text

A path is kept as it was written; joining adds a separator and nothing else. Its components are the
pieces between slashes, of which empty pieces and single dots do not count, except a dot that starts
a relative path.
-/

namespace PluginWorkshop.Path

open Text

/-- The pieces between the slashes, as written. -/
def pieces (path : Path) : List String := (splitOn '/' path.toList).map String.ofList

def isAbsolute (path : Path) : Bool := path.toList.head? == some '/'

/-- The second path below the first; an absolute path stays as it is. -/
def join (base path : Path) : Path :=
  if isAbsolute path then path
  else if base.isEmpty || base.toList.getLast? == some '/' then base ++ path
  else base ++ "/" ++ path

/-- A piece that is no component. -/
def isInert (piece : String) : Bool := piece == "" || piece == "."

/-- The pieces of a path from its last component on back, without the first piece. -/
def backwards (path : Path) : List String := ((pieces path).drop 1).reverse.dropWhile isInert

/-- The path without its last component; neither the root nor the empty path has one. -/
def parent? (path : Path) : Option Path :=
  let start := (pieces path).headD ""
  match backwards path with
  | [] => if start == "" then none else some ""
  | _ :: before =>
    let kept := (before.dropWhile isInert).reverse
    if isAbsolute path then some ("/" ++ "/".intercalate kept)
    else some ("/".intercalate (start :: kept))

/-- The last component, if it is a name. -/
def fileName? (path : Path) : Option String :=
  let last :=
    match backwards path with
    | [] => (pieces path).headD ""
    | last :: _ => last
  if isInert last || last == ".." then none else some last

/-- The parents of a path, from the nearest one on; `bound` bounds their number. -/
def parentsUpTo : (bound : Nat) → Path → List Path
  | 0, _ => []
  | bound + 1, path =>
    match parent? path with
    | none => []
    | some parent => parent :: parentsUpTo bound parent

/-- The parents of a path, from the nearest one on. -/
def parents (path : Path) : List Path := parentsUpTo (pieces path).length path

end PluginWorkshop.Path
