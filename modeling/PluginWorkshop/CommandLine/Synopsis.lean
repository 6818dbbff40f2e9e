import PluginWorkshop.CommandLine.Matching

/-!
# Synopses

One line for every command of a grammar, and a sentence for every reason for which arguments are not
carried out.
-/

namespace PluginWorkshop.CommandLine

/-- An argument as it stands in a synopsis. -/
def PositionalSpec.shown (positional : PositionalSpec) : String :=
  if positional.isRequired then "<" ++ positional.name ++ ">" else "[" ++ positional.name ++ "]"

/-- An option as it stands in a synopsis. -/
def OptionSpec.shown (option : OptionSpec) : String :=
  match option.kind with
  | .value _ => "[--" ++ option.name ++ "=<text>]"
  | .switch | .help | .version => "[--" ++ option.name ++ "]"

mutual

/-- The synopses of the commands in a command, below the words that lead to it. -/
def CommandSpec.synopses (words : List String) : CommandSpec → List String
  | .leaf name options positionals =>
    [" ".intercalate <|
      words ++ [name] ++ positionals.map PositionalSpec.shown ++ options.map OptionSpec.shown]
  | .group name _ commands => synopsesOf (words ++ [name]) commands

/-- The synopses of a list of commands. -/
def synopsesOf (words : List String) : List CommandSpec → List String
  | [] => []
  | command :: commands => command.synopses words ++ synopsesOf words commands

end

/-- The synopses of all commands, a line each. -/
def CommandSpec.overview (spec : CommandSpec) : String :=
  "Usage:\n" ++ String.join ((spec.synopses []).map fun line => "  " ++ line ++ "\n")

/-- What is wrong with the arguments. -/
def UsageIssue.message : UsageIssue → String
  | .unknownArgument => "unexpected argument"
  | .unexpectedValue => "a switch takes no value"
  | .invalidValue => "a value is missing or invalid"
  | .repeated => "an option is given twice"
  | .missingArgument => "a required argument is missing"
  | .unknownCommand => "unrecognized command"
  | .missingCommand | .nothingGiven => "a command is missing"
  | .helpWanted => "help is wanted"
  | .versionWanted => "the version is wanted"

end PluginWorkshop.CommandLine
