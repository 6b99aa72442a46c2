import Fleet.Command.Options
/-!
The commands of the program and the options of each.
-/

namespace Fleet.Command

inductive Format where
  | yaml | json | canonical
deriving DecidableEq, Repr

inductive Shell where
  | bash | zsh | fish | powerShell
deriving DecidableEq, Repr

namespace Shell

def all : List Shell := [bash, zsh, fish, powerShell]

def name : Shell → String
  | bash => "bash"
  | zsh => "zsh"
  | fish => "fish"
  | powerShell => "power-shell"

def ofName? (name : String) : Option Shell := all.find? fun s => s.name == name

end Shell

/-- How a tree is read and printed. Without a location the text is the standard input's. -/
structure ParseTree where
  location : Option String
  output : Option String
  format : Format
  unresolved : Bool
  applyDefaults : Bool
deriving DecidableEq, Repr

inductive Invocation where
  | parseTree (options : ParseTree)
  | validate (location : String)
  | completions (shell : Shell)
deriving DecidableEq, Repr

def programName : String := "formation"

def programVersion : String := "0.1.0"

namespace Spec

private def flag (long : String) (short : Char) : Opt := ⟨long, short, .flag, false⟩

def parseTree : Spec where
  name := "parse-tree"
  options :=
    [⟨"rules", 'r', .valued [], false⟩, ⟨"output", 'o', .valued [], false⟩,
      flag "print-json" 'p', flag "print-yaml" 'y', flag "canonical" 'c',
      flag "unresolved" 'u', flag "apply-defaults" 'a']
  exclusive := ["print-json", "print-yaml", "canonical"]
  helpWhenEmpty := false

def validation : Spec where
  name := "validate"
  options := [⟨"rules", 'r', .valued [], true⟩]
  exclusive := []
  helpWhenEmpty := true

def completions : Spec where
  name := "completions"
  options := [⟨"shell", 's', .valued (Shell.all.map Shell.name), true⟩]
  exclusive := []
  helpWhenEmpty := false

def all : List Spec := [parseTree, validation, completions]

end Spec

def verbose : Opt := ⟨"verbose", 'v', .counted, false⟩

/-- The commands on their own. -/
def Scope.commandsOnly : Scope := ⟨[], false, Spec.all⟩

/-- The whole program: it also tells its version and can be made to say more. -/
def Scope.program : Scope := ⟨[verbose], true, Spec.all⟩

def Format.ofGiven (given : Given) : Format :=
  if given.has "print-json" then .json
  else if given.has "canonical" then .canonical
  else .yaml

/-- The command that a line calls, if it calls one. -/
def Line.invocation? (line : Line) : Option Invocation :=
  match line.command with
  | some "parse-tree" =>
    some (.parseTree ⟨line.given.value? "rules", line.given.value? "output",
      Format.ofGiven line.given, line.given.has "unresolved", line.given.has "apply-defaults"⟩)
  | some "validate" => (line.given.value? "rules").map .validate
  | some "completions" =>
    ((line.given.value? "shell").bind Shell.ofName?).map .completions
  | _ => none

/-- The file that a command's output goes to instead of the standard output. -/
def Invocation.output? : Invocation → Option String
  | .parseTree options => options.output
  | _ => none

end Fleet.Command
