import PluginWorkshop.Json.Printer
import PluginWorkshop.Json.Reader

/-!
# Entries of the command log

An entry is an invocation of the program: a command with its arguments and named options. It is
stored as a JSON object; a list of the three fields is read as well. In an object other members are
skipped, and a field must not come twice.
-/

namespace PluginWorkshop

/-- Named values, in the order of their names. -/
structure OptionMap where
  entries : List (String × String)
  ordered : entries.Pairwise (fun a b => a.1 < b.1)
  deriving DecidableEq, Repr

namespace OptionMap

def empty : OptionMap := ⟨[], .nil⟩

/-- Puts a value under a name into ordered entries, in place of the value there. -/
def insertInto (name value : String) : List (String × String) → List (String × String)
  | [] => [(name, value)]
  | (n, v) :: entries =>
    if name < n then (name, value) :: (n, v) :: entries
    else if name = n then (name, value) :: entries
    else (n, v) :: insertInto name value entries

theorem mem_insertInto {name value : String} {entry : String × String} :
    ∀ {entries : List (String × String)}, entry ∈ insertInto name value entries →
      entry = (name, value) ∨ entry ∈ entries
  | [], h => by simpa [insertInto] using h
  | (n, v) :: entries, h => by
    unfold insertInto at h
    split at h
    · simpa using h
    · split at h
      · rcases List.mem_cons.mp h with h | h
        · exact .inl h
        · exact .inr (List.mem_cons_of_mem _ h)
      · rcases List.mem_cons.mp h with h | h
        · exact .inr (h ▸ List.mem_cons_self)
        · rcases mem_insertInto h with h | h
          · exact .inl h
          · exact .inr (List.mem_cons_of_mem _ h)

theorem ordered_insertInto (name value : String) :
    ∀ {entries : List (String × String)}, entries.Pairwise (fun a b => a.1 < b.1) →
      (insertInto name value entries).Pairwise (fun a b => a.1 < b.1)
  | [], _ => by simp [insertInto]
  | (n, v) :: entries, h => by
    rw [List.pairwise_cons] at h
    unfold insertInto
    split
    next hlt =>
      refine List.pairwise_cons.mpr ⟨fun e he => ?_, List.pairwise_cons.mpr h⟩
      rcases List.mem_cons.mp he with rfl | he
      · exact hlt
      · exact String.lt_trans hlt (h.1 e he)
    next hlt =>
      split
      next heq =>
        subst heq
        exact List.pairwise_cons.mpr ⟨fun e he => h.1 e he, h.2⟩
      next hne =>
        refine List.pairwise_cons.mpr ⟨fun e he => ?_, ordered_insertInto name value h.2⟩
        rcases mem_insertInto he with rfl | he
        · have hle : n ≤ name := String.not_lt.mp hlt
          exact String.not_le.mp fun hge => hne (String.le_antisymm hge hle)
        · exact h.1 e he

/-- Puts a value under a name, in place of the value there. -/
def insert (options : OptionMap) (name value : String) : OptionMap :=
  ⟨insertInto name value options.entries, ordered_insertInto name value options.ordered⟩

/-- The values put under their names one after the other. -/
def ofList (entries : List (String × String)) : OptionMap :=
  entries.foldl (fun options (name, value) => options.insert name value) empty

end OptionMap

/-- An invocation of the program. -/
structure CommandEntry where
  command : String
  args : List String
  options : OptionMap
  deriving DecidableEq, Repr

namespace CommandEntry

/-- The entry as a JSON object. -/
def toJson (entry : CommandEntry) : Json :=
  .object [
    ("command", .string entry.command),
    ("args", .array (entry.args.map .string)),
    ("assoc_args", .object (entry.options.entries.map fun (name, value) => (name, .string value)))]

/-- The text under which the entry is stored. -/
def render (entry : CommandEntry) : String := entry.toJson.compact

/-! ## Reading -/

open Json

/-- A field of a stored entry. -/
inductive Field where
  | command (text : String)
  | args (texts : List String)
  | options (map : OptionMap)
  | other
  deriving DecidableEq, Repr

def textValue : Reader String := fun s =>
  match skipSpace s with
  | '"' :: rest => stringText rest
  | rest => .error (flawAfter .expectedValue rest)

def textList : Reader (List String) := fun s =>
  match skipSpace s with
  | '[' :: rest => sequence .list textValue rest
  | rest => .error (flawAfter .expectedValue rest)

def textMap : Reader OptionMap := fun s =>
  match skipSpace s with
  | '\x7b' :: rest =>
    (sequence .object (member stringText fun _ => textValue) rest).map fun (entries, rest) =>
      (.ofList entries, rest)
  | rest => .error (flawAfter .expectedValue rest)

/-- The reader with its value turned into a field. -/
def asField (field : α → Field) (read : Reader α) : Reader Field := fun s =>
  (read s).map fun (value, rest) => (field value, rest)

def commandField : Reader Field := asField .command textValue

def argsField : Reader Field := asField .args textList

def optionsField : Reader Field := asField .options textMap

/-- The field under a key of an object. -/
def fieldUnder (key : String) : Reader Field :=
  if key = "command" then commandField
  else if key = "args" then argsField
  else if key = "assoc_args" then optionsField
  else asField (fun _ => .other) skippedValue

/-- Items of a list of which each has a reader of its own, up to and with the closing bracket. Fewer
items than readers may come, but one at least. -/
def itemsInOrder : List (Reader α) → Reader (List α)
  | [], s => .error (flawAfter .trailingCharacters s)
  | read :: readers, s => do
    let (first, rest) ← read s
    match skipSpace rest with
    | ']' :: rest => return ([first], rest)
    | ',' :: rest =>
      let (others, rest) ← itemsInOrder readers (skipSpace rest)
      return (first :: others, rest)
    | rest => .error (flawAfter .expectedListEnd rest)

/-- The fields of a stored entry. -/
def fields : Reader (List Field) := fun s =>
  match skipSpace s with
  | '\x7b' :: rest =>
    (sequence .object (member stringText fieldUnder) rest).map fun (members, rest) =>
      (members.map Prod.snd, rest)
  | '[' :: rest => itemsInOrder [commandField, argsField, optionsField] rest
  | rest => .error (flawAfter .expectedValue rest)

def Field.command? : Field → Option String
  | .command text => some text
  | _ => none

def Field.args? : Field → Option (List String)
  | .args texts => some texts
  | _ => none

def Field.options? : Field → Option OptionMap
  | .options map => some map
  | _ => none

/-- The entry with these fields: a command, and not two fields of one kind. -/
def ofFields? (fields : List Field) : Option CommandEntry :=
  match fields.filterMap Field.command?, fields.filterMap Field.args?,
      fields.filterMap Field.options? with
  | [command], [], [] => some ⟨command, [], .empty⟩
  | [command], [args], [] => some ⟨command, args, .empty⟩
  | [command], [], [options] => some ⟨command, [], options⟩
  | [command], [args], [options] => some ⟨command, args, options⟩
  | _, _, _ => none

/-- The entry that a text stores. -/
def parse? (text : String) : Option CommandEntry :=
  match wholeText fields text.toList with
  | .ok fields => ofFields? fields
  | .error _ => none

end CommandEntry

end PluginWorkshop
