import Fleet.Command.Invocation
/-!
Scripts that complete the program's commands and options in a shell.
-/

namespace Fleet.Command

def optionWords (spec : Spec) : List String :=
  spec.options.map (fun o => "--" ++ o.long) ++ ["--help"]

def commandWords : List String := Spec.all.map Spec.name ++ ["help"]

private def words (ws : List String) : String := " ".intercalate ws

private def bashScript : String :=
  let cases := Spec.all.map fun spec =>
    "    " ++ spec.name ++ ") words=\"" ++ words (optionWords spec) ++ "\" ;;\n"
  "_" ++ programName ++ "() \x7b\n" ++
    "  local words=\"" ++ words commandWords ++ "\"\n" ++
    "  case \"$\x7bCOMP_WORDS[1]\x7d\" in\n" ++ String.join cases ++ "  esac\n" ++
    "  COMPREPLY=($(compgen -W \"$words\" -- \"$\x7bCOMP_WORDS[COMP_CWORD]\x7d\"))\n" ++
    "\x7d\ncomplete -F _" ++ programName ++ " -o default " ++ programName ++ "\n"

private def zshScript : String :=
  let cases := Spec.all.map fun spec =>
    "    " ++ spec.name ++ ") compadd -- " ++ words (optionWords spec) ++ "; _files ;;\n"
  "#compdef " ++ programName ++ "\n" ++
    "_" ++ programName ++ "() \x7b\n" ++
    "  if (( CURRENT == 2 )); then compadd -- " ++ words commandWords ++ "; return; fi\n" ++
    "  case \"$words[2]\" in\n" ++ String.join cases ++ "  esac\n\x7d\n" ++
    "compdef _" ++ programName ++ " " ++ programName ++ "\n"

private def fishScript : String :=
  let start := "complete -c " ++ programName
  let commands := commandWords.map fun w =>
    start ++ " -n __fish_use_subcommand -a " ++ w ++ "\n"
  let options := Spec.all.flatMap fun spec => spec.options.map fun o =>
    start ++ " -n \"__fish_seen_subcommand_from " ++ spec.name ++ "\" -l " ++ o.long ++ " -s " ++
      o.short.toString ++ "\n"
  String.join (commands ++ options)

private def powerShellScript : String :=
  let quoted (ws : List String) := ", ".intercalate (ws.map fun w => "'" ++ w ++ "'")
  let cases := Spec.all.map fun spec =>
    "    '" ++ spec.name ++ "' \x7b " ++ quoted (optionWords spec) ++ " \x7d\n"
  "Register-ArgumentCompleter -Native -CommandName '" ++ programName ++ "' -ScriptBlock \x7b\n" ++
    "  param($word, $line, $position)\n" ++
    "  $found = switch ($line.CommandElements[1].Value) \x7b\n" ++ String.join cases ++
    "    default \x7b " ++ quoted commandWords ++ " \x7d\n  \x7d\n" ++
    "  $found | Where-Object \x7b $_ -like \"$word*\" \x7d\n\x7d\n"

/-- The script for a shell. -/
def Shell.script : Shell → String
  | bash => bashScript
  | zsh => zshScript
  | fish => fishScript
  | powerShell => powerShellScript

end Fleet.Command
