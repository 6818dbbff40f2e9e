/-!
# JSON values

A number is kept as its text, and an object as its members in order. The members of an object read
from a text have different keys: a repeated key keeps its first place and takes the last value
(`Members.put`).

Two values are the same document (`Json.same`) if they differ in the order of members at most.
-/

namespace PluginWorkshop

/-- A JSON value. -/
inductive Json where
  | null
  | bool (value : Bool)
  | number (text : String)
  | string (text : String)
  | array (items : List Json)
  | object (members : List (String × Json))
  deriving Repr, Inhabited

/-- The members of an object, in order. -/
abbrev Members := List (String × Json)

namespace Members

/-- The value under a key. -/
def get? (key : String) : Members → Option Json
  | [] => none
  | (k, v) :: members => if k = key then some v else get? key members

/-- Puts a value under a key: in the place of the value there, or at the end. -/
def put (key : String) (value : Json) : Members → Members
  | [] => [(key, value)]
  | (k, v) :: members => if k = key then (k, value) :: members else (k, v) :: put key value members

/-- The members without those under a key. -/
def remove (key : String) (members : Members) : Members := members.filter (·.1 != key)

/-- The members put into an empty object one after the other. -/
def ofList (members : List (String × Json)) : Members :=
  members.foldl (fun object (k, v) => put k v object) []

end Members

namespace Json

mutual

/-- Equality of documents: the members of objects may come in any order. -/
def same : Json → Json → Bool
  | null, null => true
  | bool a, bool b => a == b
  | number a, number b => a == b
  | string a, string b => a == b
  | array xs, array ys => sameItems xs ys
  | object xs, object ys => xs.length == ys.length && sameMembers xs ys
  | _, _ => false

/-- Lists of the same length whose items are the same in pairs. -/
def sameItems : List Json → List Json → Bool
  | [], [] => true
  | x :: xs, y :: ys => same x y && sameItems xs ys
  | _, _ => false

/-- Every member of the first list has the same value in the second. -/
def sameMembers : List (String × Json) → Members → Bool
  | [], _ => true
  | (k, v) :: members, ys =>
    (match Members.get? k ys with
    | some w => same v w
    | none => false) && sameMembers members ys

end

/-- The members of an object. -/
def members? : Json → Option Members
  | object members => some members
  | _ => none

def items? : Json → Option (List Json)
  | array items => some items
  | _ => none

def text? : Json → Option String
  | string text => some text
  | _ => none

end Json

end PluginWorkshop
