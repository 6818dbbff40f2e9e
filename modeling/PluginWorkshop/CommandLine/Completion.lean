import PluginWorkshop.CommandLine.Invocation

/-!
# Completions

Scripts that have a shell complete the names of commands and options.
-/

namespace PluginWorkshop.Shell

open CommandLine

/-- The names that can be completed: the commands of the program, then their options. -/
def candidates (spec : CommandSpec) : List String :=
  let commands := spec.commands
  let options := (spec :: commands).flatMap fun command => command.options.map (·.name)
  commands.map (·.name) ++ helpCommand :: options.eraseDups.map ("--" ++ ·)

/-- The script for a shell. -/
def completions (shell : Shell) (spec : CommandSpec) : String :=
  let program := spec.name
  let listed := " ".intercalate (candidates spec)
  match shell with
  | bash => "complete -o default -W '" ++ listed ++ "' " ++ program ++ "\n"
  | elvish =>
    "set edit:completion:arg-completer[" ++ program ++ "] = \x7b|@words| put " ++ listed ++
      " \x7d\n"
  | fish => "complete -c " ++ program ++ " -a '" ++ listed ++ "'\n"
  | powershell =>
    "Register-ArgumentCompleter -Native -CommandName " ++ program ++
      " -ScriptBlock \x7b param($word) -split '" ++ listed ++
      "' | Where-Object \x7b $_ -like \"$word*\" \x7d \x7d\n"
  | zsh => "#compdef " ++ program ++ "\ncompadd -- " ++ listed ++ "\n"

end PluginWorkshop.Shell
