/-!
# Grammars of command lines

A command has options and either positional arguments or further commands. Its options may be given
anywhere after its name, up to the name of a further command.
-/

namespace PluginWorkshop.CommandLine

/-- Which texts a value may be. -/
inductive ValueRule where
  | any
  | nonEmpty
  | oneOf (texts : List String)
  deriving DecidableEq, Repr

namespace ValueRule

def admits : ValueRule → String → Bool
  | any, _ => true
  | nonEmpty, text => !text.isEmpty
  | oneOf texts, text => texts.contains text

end ValueRule

/-- What an option does. -/
inductive OptionKind where
  | switch
  | value (rule : ValueRule)
  /-- Asks for help. -/
  | help
  /-- Asks for the version. -/
  | version
  deriving DecidableEq, Repr

/-- An option, given as two hyphens and its name or as a hyphen and its letter. -/
structure OptionSpec where
  name : String
  letter : Option Char
  kind : OptionKind
  deriving DecidableEq, Repr

namespace OptionSpec

/-- A switch without a letter. -/
def switch (name : String) : OptionSpec := ⟨name, none, .switch⟩

/-- An option with any text as its value. -/
def text (name : String) : OptionSpec := ⟨name, none, .value .any⟩

/-- An option with a path as its value. -/
def path (name : String) : OptionSpec := ⟨name, none, .value .nonEmpty⟩

end OptionSpec

/-- An argument that is told by its position. -/
structure PositionalSpec where
  name : String
  rule : ValueRule
  isRequired : Bool
  deriving DecidableEq, Repr

/-- A command, with positional arguments or with further commands. -/
inductive CommandSpec where
  | leaf (name : String) (options : List OptionSpec) (positionals : List PositionalSpec)
  | group (name : String) (options : List OptionSpec) (commands : List CommandSpec)
  deriving Repr

namespace CommandSpec

def name : CommandSpec → String
  | leaf name _ _ => name
  | group name _ _ => name

def options : CommandSpec → List OptionSpec
  | leaf _ options _ => options
  | group _ options _ => options

def positionals : CommandSpec → List PositionalSpec
  | leaf _ _ positionals => positionals
  | group _ _ _ => []

def commands : CommandSpec → List CommandSpec
  | leaf _ _ _ => []
  | group _ _ commands => commands

def isGroup : CommandSpec → Bool
  | leaf _ _ _ => false
  | group _ _ _ => true

/-- The command of a name in a group. -/
def command? (spec : CommandSpec) (name : String) : Option CommandSpec :=
  spec.commands.find? (·.name == name)

def optionNamed? (spec : CommandSpec) (name : String) : Option OptionSpec :=
  spec.options.find? (·.name == name)

def optionLettered? (spec : CommandSpec) (letter : Char) : Option OptionSpec :=
  spec.options.find? (·.letter == some letter)

end CommandSpec

/-- The command of every group that shows help. -/
def helpCommand : String := "help"

end PluginWorkshop.CommandLine
