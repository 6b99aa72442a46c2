import Fleet.Command.Execution
import Fleet.Disk
/-!
The program as a whole: from its arguments to its exit code and what it printed.
-/

namespace Fleet.Command

structure Exit where
  code : Nat
  out : String
  err : String
deriving DecidableEq, Repr

def usageLine : String := s!"Usage: {programName} [OPTIONS] [COMMAND]\n"

/-- How the program is called. -/
def helpText : String :=
  let commands := Spec.all.map fun spec =>
    "  " ++ spec.name ++ " " ++ " ".intercalate (optionWords spec) ++ "\n"
  "Compiles cloud formation documents.\n\n" ++ usageLine ++ "\nCommands:\n" ++ String.join commands

def Usage.exit : Usage → Exit
  | .help => ⟨0, helpText, ""⟩
  | .version => ⟨0, s!"{programName} {programVersion}\n", ""⟩
  | .helpForMissing => ⟨2, "", helpText⟩
  | _ => ⟨2, "", usageLine⟩

/-- A command's own number, or that of invalid text when it ended with a fault. -/
def Finish.exit (f : Finish) : Exit :=
  match f.status with
  | .ok code => ⟨code, f.out, f.err⟩
  | .error e => ⟨Finish.invalidText, f.out, f.err ++ s!"Error occurred {e.message}\n"⟩

variable {m : Type → Type} [Monad m]

/-- Runs a command. A file for its output is made before anything is read, so it is there, empty,
when the command fails. -/
def Invocation.toExit (host : Host m) (i : Invocation) : m Exit := do
  match i.output? with
  | none => return (← i.run host).exit
  | some path =>
    match ← host.create path with
    | .error e => return ⟨1, "", s!"Error: IoError({e.detail})\n"⟩
    | .ok () =>
      let exit := (← i.run host).exit
      host.write path exit.out
      return { exit with out := "" }

/-- Runs the program. Without arguments it shows its help, and without a command how to call it. -/
def runProgram (host : Host m) (args : List String) : m Exit :=
  match Scope.program.parse args with
  | .error usage => pure usage.exit
  | .ok line =>
    match line.invocation? with
    | some i => i.toExit host
    | none => pure (if line.given.isEmpty then Usage.helpForMissing.exit else ⟨0, usageLine, ""⟩)

/-- A file system and a standard input. -/
structure Desk where
  root : Tree
  input : ByteArray

/-- The program at work on a file system that is a value. -/
def Desk.host (site : Site := .top) : Host (StateM Desk) where
  stat path := do return (← get).root.stat site path
  read path := do return (← get).root.read site path
  walk before keep path := do
    let root := (← get).root
    match root.locate site path with
    | .ok t => t.visit (root.refusal? site) before keep path
    | .error e => return [.error (.unlisted path.shown e)]
  create path := do
    match (← get).root.checkCreate site (OsText.ofText path) with
    | .ok () =>
      modify fun d => { d with root := d.root.write path .empty site }
      return .ok ()
    | .error e => return .error e
  write path text := modify fun d => { d with root := d.root.write path text.toUTF8 site }
  input := do return (← get).input

end Fleet.Command
