/-!
# TOML documents

The value of a TOML document. Numbers, booleans and times are kept as their text, because the
settings have none.

A document is put together line by line (`Table.addHeader`, `Table.addTables`, `Table.addEntry`). A
table remembers how it came about, because that decides who may still add to it: a header may
complete a table that only longer headers have mentioned, and a dotted key may add to a table that
dotted keys have made. A table written between braces takes no more entries.
-/

namespace PluginWorkshop.Toml

/-- How a table came about. -/
inductive Origin where
  /-- A header names it, or it is the document. -/
  | header
  /-- A longer header mentions it. -/
  | mentioned
  /-- A dotted key makes it. -/
  | dotted
  /-- It is written between braces. -/
  | closed
  deriving DecidableEq, Repr

/-- A value of a document. -/
inductive Value where
  | string (text : String)
  /-- A number, a boolean or a time. -/
  | scalar (text : String)
  | array (items : List Value)
  | table (origin : Origin) (entries : List (String × Value))
  /-- Tables under a header in double brackets, the last one first. -/
  | tables (reversed : List (List (String × Value)))
  deriving Repr, Inhabited

namespace Value

def text? : Value → Option String
  | string text => some text
  | _ => none

/-- The texts of an array of strings. -/
def texts? : Value → Option (List String)
  | array items => items.mapM text?
  | _ => none

end Value

/-- The entries of a table. -/
abbrev Table := List (String × Value)

namespace Table

def get? (key : String) : Table → Option Value
  | [] => none
  | (k, v) :: table => if k = key then some v else get? key table

/-- Puts a value under a key, in place of the one there. -/
def put (key : String) (value : Value) : Table → Table
  | [] => [(key, value)]
  | (k, v) :: table => if k = key then (k, value) :: table else (k, v) :: put key value table

/-- Changes the table that a path of keys leads to; keys that are not there are made tables. With
`dotted`, the path may not lead through tables that headers have made. -/
def changeAt (dotted : Bool) (change : Table → Option Table) : List String → Table → Option Table
  | [], table => change table
  | key :: path, table =>
    match get? key table with
    | none => do
      let inner ← changeAt dotted change path []
      return put key (.table (if dotted then .dotted else .mentioned) inner) table
    | some (.table origin entries) =>
      if origin = .closed ∨ (dotted ∧ origin = .header) then none
      else do
        let inner ← changeAt dotted change path entries
        return put key (.table origin inner) table
    | some (.tables (last :: others)) => do
      let inner ← changeAt dotted change path last
      return put key (.tables (inner :: others)) table
    | some _ => none

/-- The document with the table of a header. -/
def addHeader (path : List String) (document : Table) : Option Table :=
  match path.getLast? with
  | none => none
  | some key =>
    changeAt false (fun table =>
      match get? key table with
      | none => some (put key (.table .header []) table)
      | some (.table .mentioned entries) => some (put key (.table .header entries) table)
      | some _ => none) path.dropLast document

/-- The document with one more table under a header in double brackets. -/
def addTables (path : List String) (document : Table) : Option Table :=
  match path.getLast? with
  | none => none
  | some key =>
    changeAt false (fun table =>
      match get? key table with
      | none => some (put key (.tables [[]]) table)
      | some (.tables others) => some (put key (.tables ([] :: others)) table)
      | some _ => none) path.dropLast document

/-- The table that a path of keys leads to was made by dotted keys, or the path is empty. -/
def endsDotted : List String → Table → Bool
  | [], _ => true
  | key :: path, table =>
    match get? key table with
    | none => true
    | some (.table origin entries) =>
      if path.isEmpty then origin = .dotted else endsDotted path entries
    | some (.tables (last :: _)) => !path.isEmpty && endsDotted path last
    | some _ => true

/-- The table with a value under a dotted key. -/
def addEntry (path : List String) (value : Value) (table : Table) : Option Table :=
  match path.getLast? with
  | none => none
  | some key =>
    if endsDotted path.dropLast table then
      changeAt true (fun table =>
        match get? key table with
        | none => some (put key value table)
        | some _ => none) path.dropLast table
    else none

end Table

/-- A line of a document that is not blank. -/
inductive Statement where
  | header (path : List String)
  | tables (path : List String)
  | entry (path : List String) (value : Value)
  deriving Repr

/-- A document under construction: the entries that follow belong to the table of the last
header. -/
structure Draft where
  document : Table
  here : List String

namespace Draft

/-- Changes the table of the last header. -/
def changeHere (change : Table → Option Table) (draft : Draft) : Option Draft := do
  let document ← Table.changeAt false change draft.here draft.document
  return { draft with document }

/-- The draft with one more line. -/
def add (draft : Draft) : Statement → Option Draft
  | .header path => (Table.addHeader path draft.document).map (⟨·, path⟩)
  | .tables path => (Table.addTables path draft.document).map (⟨·, path⟩)
  | .entry path value => draft.changeHere (Table.addEntry path value)

end Draft

/-- The document that the lines make, unless one of them contradicts an earlier one. -/
def ofStatements? (statements : List Statement) : Option Table :=
  (statements.foldlM Draft.add ⟨[], []⟩).map Draft.document

end PluginWorkshop.Toml
