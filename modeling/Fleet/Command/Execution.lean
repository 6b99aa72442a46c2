import Fleet.Command.Completions
import Fleet.Command.Host
import Fleet.Compile
import Fleet.Data.Json
import Fleet.Data.Yaml
import Fleet.Formation.Render
/-!
What each command does with what it reads. A command ends with a number or a fault; what it wrote
before a fault stays written.
-/

namespace Fleet.Command

structure Finish where
  status : Except Fault Nat
  out : String
  err : String
  events : List Event

namespace Finish

def success : Nat := 0

/-- The text of a tree could not be made sense of. -/
def invalidText : Nat := 5

/-- Some file of those looked at does not pass. -/
def failure : Nat := 19

def ofFault (f : Fault) : Finish := ⟨.error f, "", "", []⟩

end Finish

def decode (content : ByteArray) : Except Fault String :=
  match String.fromUTF8? content with
  | some text => .ok text
  | none => .error (.unreadable .notUtf8)

/-- The text of a file that was read. -/
def fileText : Except FileFault ByteArray → Except Fault String
  | .ok content => decode content
  | .error e => .error (.unreadable e)

/-- Faults of the text, as opposed to those of getting at it. -/
def concernsText (f : Fault) : Bool :=
  f.isSemantic || match f with
    | .malformed _ => true
    | _ => false

def Format.print : Format → Formation → String
  | yaml, f => f.toData.toYaml
  | json, f => f.toData.toJson "" ++ "\n"
  | canonical, f => f.render

namespace ParseTree

def source (options : ParseTree) : String := options.location.getD ""

/-- Defaults come last: they are merged into the blocks as resolving left them. -/
def compile (options : ParseTree) (text : String) : Journaled Formation := do
  let parsed ← Formation.parse options.source text
  let resolved ← if options.unresolved then pure parsed else do
    let resolved ← parsed.resolve
    Journaled.ofExcept resolved.check
    pure resolved
  pure (if options.applyDefaults then resolved.applyDefaults else resolved)

def execute (options : ParseTree) (text : Except Fault String) : Finish :=
  match text with
  | .error e => .ofFault e
  | .ok text =>
    let compiled := options.compile text
    let events := .textRead text.utf8ByteSize :: compiled.events
    match compiled.outcome with
    | .ok f => ⟨.ok Finish.success, options.format.print f, "", events⟩
    | .error e =>
      if concernsText e then
        let message := s!"Parsing error handling cloud formation, Error = {e.message}\n"
        ⟨.ok Finish.invalidText, "", message, events⟩
      else ⟨.error e, "", "", events⟩

end ParseTree

namespace Validate

/-- What checking one text writes, before what is written for the files after it. -/
def checkText (name text : String) (others : Finish) : Finish :=
  let compiled := Formation.compile name text
  match compiled.outcome with
  | .ok f =>
    { status := others.status
      out := s!"{name} Status = PASS\n" ++ others.out
      err := others.err
      events := compiled.events ++
        .validated name f.pools.length f.boxes.length :: others.events }
  | .error e =>
    { status := others.status.map fun _ => Finish.failure
      out := s!"{name} Status = FAIL\n" ++ others.out
      err := s!"{name}: {e.message}\n" ++ others.err
      events := compiled.events ++ others.events }

variable {m : Type → Type} [Monad m] (host : Host m)

/-- One line for each file, up to one that is not text. -/
def checkFiles : List OsText → m Finish
  | [] => return ⟨.ok Finish.success, "", "", []⟩
  | path :: paths => do
    match fileText (← host.read path) with
    | .error e => return .ofFault e
    | .ok text =>
      let others ← checkFiles paths
      return checkText path.shown text others

def execute (location : String) : m Finish := do
  match ← formationFiles host location with
  | .error e => return .ofFault e
  | .ok paths =>
    let finish ← checkFiles host paths
    return { finish with events := .validating paths.length location :: finish.events }

end Validate

variable {m : Type → Type} [Monad m]

def Invocation.run (host : Host m) : Invocation → m Finish
  | .parseTree options => do
    match options.location with
    | some path =>
      let content ← host.read (OsText.ofText path)
      return options.execute (fileText content)
    | none =>
      let content ← host.input
      return options.execute (decode content)
  | .validate location => Validate.execute host location
  | .completions shell => pure ⟨.ok Finish.success, shell.script, "", []⟩

end Fleet.Command
