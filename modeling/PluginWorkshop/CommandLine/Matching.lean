import PluginWorkshop.CommandLine.Grammar
import PluginWorkshop.Text.Split

/-!
# Matching arguments

The arguments are read from left to right against a grammar (`CommandSpec.read`). A value that has
been read is kept until the next option or positional argument begins (`Progress.settle`); only then
is it checked and stored. Once a command is named, the rest is read against that command, and the
outer command is finished after the inner one.
-/

namespace PluginWorkshop.CommandLine

open Text

/-- Why the arguments are not carried out. -/
inductive UsageIssue where
  | unknownArgument
  /-- A switch has a value. -/
  | unexpectedValue
  /-- A value is missing or is not admitted. -/
  | invalidValue
  /-- An option is given twice. -/
  | repeated
  | missingArgument
  | unknownCommand
  | missingCommand
  /-- There is neither a command nor an option. -/
  | nothingGiven
  | helpWanted
  | versionWanted
  deriving DecidableEq, Repr

/-- The commands named, from the outside in, and the values given; those of inner commands come
first. A switch has the empty value. -/
structure Match where
  commands : List String
  values : List (String × String)
  deriving DecidableEq, Repr

namespace Match

/-- The value of an option or argument, if it is given. -/
def value? (m : Match) (name : String) : Option String :=
  (m.values.find? (·.1 == name)).map Prod.snd

/-- The switch is given. -/
def has (m : Match) (name : String) : Bool := (m.value? name).isSome

end Match

/-! ## The form of an argument -/

inductive ArgumentForm where
  /-- Two hyphens: no option follows. -/
  | separator
  | named (name : String) (value : Option String)
  /-- Letters of options after one hyphen. -/
  | lettered (letters : List Char)
  | plain
  deriving DecidableEq, Repr

/-- The form of an argument; a single hyphen is no option. -/
def ArgumentForm.ofText (text : String) : ArgumentForm :=
  match text.toList with
  | ['-', '-'] => .separator
  | '-' :: '-' :: rest =>
    let name := String.ofList (rest.takeWhile (· != '='))
    match rest.dropWhile (· != '=') with
    | _ :: value => .named name (some (String.ofList value))
    | [] => .named name none
  | '-' :: letter :: letters => .lettered (letter :: letters)
  | _ => .plain

/-! ## Reading one command -/

/-- A value that is not stored yet. -/
structure Pending where
  name : String
  rule : ValueRule
  /-- The text, unless it has still to come. -/
  text : Option String
  deriving DecidableEq, Repr

/-- How far a command has been read. -/
structure Progress where
  values : List (String × String)
  pending : Option Pending
  /-- The separator has been read. -/
  isTrailing : Bool
  /-- The positional arguments still to come. -/
  positionals : List PositionalSpec
  deriving DecidableEq, Repr

namespace Progress

def start (spec : CommandSpec) : Progress := ⟨[], none, false, spec.positionals⟩

/-- The option just named still lacks its value. -/
def awaitsValue (progress : Progress) : Bool :=
  match progress.pending with
  | some pending => pending.text.isNone
  | none => false

/-- Stores a value under a name that has none yet. -/
def store (name value : String) (progress : Progress) : Except UsageIssue Progress :=
  if progress.values.any (·.1 == name) then .error .repeated
  else .ok { progress with values := progress.values ++ [(name, value)] }

/-- Checks and stores a value. -/
def storeValue (name : String) (rule : ValueRule) (text : Option String) (progress : Progress) :
    Except UsageIssue Progress := do
  match text with
  | none => throw .invalidValue
  | some text =>
    let progress ← progress.store name text
    if rule.admits text then return progress else throw .invalidValue

/-- Stores the value that is not stored yet. -/
def settle (progress : Progress) : Except UsageIssue Progress :=
  match progress.pending with
  | none => .ok progress
  | some pending =>
    storeValue pending.name pending.rule pending.text { progress with pending := none }

/-- Begins an option or argument whose value is not stored yet. -/
def begin (pending : Pending) (progress : Progress) : Except UsageIssue Progress := do
  let progress ← progress.settle
  return { progress with pending := some pending }

/-- Carries out an option that has no value. -/
def switchOn (option : OptionSpec) (progress : Progress) : Except UsageIssue Progress := do
  let progress ← progress.settle
  match option.kind with
  | .help => throw .helpWanted
  | .version => throw .versionWanted
  | .switch | .value _ => progress.store option.name ""

/-- Reads an option that is given by its name. -/
def named (spec : CommandSpec) (name : String) (value : Option String) (progress : Progress) :
    Except UsageIssue Progress :=
  match spec.optionNamed? name with
  | none => .error .unknownArgument
  | some option =>
    match option.kind, value with
    | .value rule, some text => do
      let progress ← progress.settle
      progress.storeValue option.name rule (some text)
    | .value rule, none => progress.begin ⟨option.name, rule, none⟩
    | _, some _ => .error .unexpectedValue
    | _, none => progress.switchOn option

/-- Reads options that are given by their letters; none of them takes a value. -/
def lettered (spec : CommandSpec) (letters : List Char) (progress : Progress) :
    Except UsageIssue Progress :=
  letters.foldlM (fun progress letter =>
    match spec.optionLettered? letter with
    | none => .error .unknownArgument
    | some option => progress.switchOn option) progress

/-- Why an argument is refused for which there is no place. -/
def refuse (spec : CommandSpec) (text : String) (progress : Progress) : UsageIssue :=
  if spec.isGroup then
    if progress.isTrailing && ((spec.command? text).isSome || text == helpCommand) then
      .unknownArgument
    else .unknownCommand
  else .unknownArgument

/-- Reads an argument that is no option. -/
def positional (spec : CommandSpec) (text : String) (progress : Progress) :
    Except UsageIssue Progress :=
  match progress.positionals with
  | [] => .error (progress.refuse spec text)
  | next :: positionals => do
    let progress ← progress.begin ⟨next.name, next.rule, some text⟩
    return { progress with positionals }

/-- Reads an argument that names no command. -/
def argument (spec : CommandSpec) (text : String) (progress : Progress) :
    Except UsageIssue Progress :=
  if progress.isTrailing then progress.positional spec text
  else
    match ArgumentForm.ofText text, progress.pending with
    | .separator, _ => .ok { progress with isTrailing := true }
    | .named name value, _ => progress.named spec name value
    | .lettered letters, _ => progress.lettered spec letters
    | .plain, some ⟨name, rule, none⟩ =>
      .ok { progress with pending := some ⟨name, rule, some text⟩ }
    | .plain, _ => progress.positional spec text

/-- The next argument may name a command. -/
def admitsCommand (progress : Progress) : Bool := !progress.isTrailing && !progress.awaitsValue

/-- Ends a command after which no further command was named. -/
def finish (spec : CommandSpec) (progress : Progress) : Except UsageIssue Match := do
  let progress ← progress.settle
  if spec.isGroup then throw (if progress.values.isEmpty then .nothingGiven else .missingCommand)
  else if progress.positionals.any (·.isRequired) then throw .missingArgument
  else return ⟨[], progress.values⟩

/-- Ends a command after the command in it. -/
def finishAround (command : String) (inner : Match) (progress : Progress) :
    Except UsageIssue Match := do
  let progress ← progress.settle
  return ⟨command :: inner.commands, inner.values ++ progress.values⟩

end Progress

/-! ## Reading all arguments -/

/-- Whether the words after the command for help name a command. -/
def helpOn (spec : CommandSpec) : List String → UsageIssue
  | [] => .helpWanted
  | word :: words =>
    match spec.command? word with
    | some command => helpOn command words
    | none =>
      if spec.isGroup && word == helpCommand && words.isEmpty then .helpWanted else .unknownCommand

/-- Reads the arguments after those that have led to a progress. -/
def CommandSpec.readFrom (spec : CommandSpec) (progress : Progress) :
    List String → Except UsageIssue Match
  | [] => progress.finish spec
  | text :: rest =>
    if progress.admitsCommand && spec.isGroup && text == helpCommand then .error (helpOn spec rest)
    else
      match if progress.admitsCommand then spec.command? text else none with
      | some command => do
        let inner ← readFrom command (.start command) rest
        progress.finishAround command.name inner
      | none => do
        let progress ← progress.argument spec text
        readFrom spec progress rest

/-- Reads arguments against a grammar. -/
def CommandSpec.read (spec : CommandSpec) (arguments : List String) : Except UsageIssue Match :=
  spec.readFrom (.start spec) arguments

end PluginWorkshop.CommandLine
