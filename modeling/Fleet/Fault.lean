import Fleet.Formation.Basic
import Fleet.Peg.Failure
/-!
What can be wrong with a formation, its text or the place it is read from, and the message for
each.
-/

namespace Fleet

/-- Why a value is not acceptable where it stands. -/
inductive Defect where
  | tooLarge (digits : String)
  | wrongListeners (protocol : Protocol) (pool : String)
  | noListeners (protocol : Protocol) (pool : String)
  | emptySequence (owner : Owner)
  | noValues (key : String) (owner : Owner)
  /-- A reason that a rule table of one's own gives. -/
  | stated (reason : String)
deriving DecidableEq, Repr

def Defect.text : Defect → String
  | tooLarge digits => s!"{digits} is too large for an integer"
  | wrongListeners .http pool =>
    s!"http-pool '{pool}' must declare service blocks instead of ports"
  | wrongListeners .tcp pool =>
    s!"tcp-pool '{pool}' must declare a ports line instead of service blocks"
  | noListeners .http pool => s!"http-pool '{pool}' has no service blocks"
  | noListeners .tcp pool => s!"tcp-pool '{pool}' has no ports"
  | emptySequence owner => s!"bootstrap sequence for {owner.label} is empty"
  | noValues key owner => s!"pair `{key}` for {owner.label} has no values"
  | stated reason => reason

/-- Why a file could not be opened or read. -/
inductive FileFault where
  | notFound
  | notDirectory
  | isDirectory
  | notPermitted
  | nameTooLong
  /-- No path holds the character that ends paths for the system. -/
  | holdsNul
  | notUtf8
  /-- A walk comes to a directory that cannot be listed. -/
  | unlisted (path : String) (cause : FileFault)
deriving DecidableEq, Repr

namespace FileFault

/-- The number and kind that the system has for a fault of its own. -/
def system? : FileFault → Option (Nat × String)
  | notFound => some (2, "NotFound")
  | notPermitted => some (13, "PermissionDenied")
  | notDirectory => some (20, "NotADirectory")
  | isDirectory => some (21, "IsADirectory")
  | nameTooLong => some (36, "InvalidFilename")
  | holdsNul | notUtf8 | unlisted .. => none

/-- What is wrong, without the system's number for it. -/
def wording : FileFault → String
  | notFound => "No such file or directory"
  | notPermitted => "Permission denied"
  | notDirectory => "Not a directory"
  | isDirectory => "Is a directory"
  | nameTooLong => "File name too long"
  | holdsNul => "file name contained an unexpected NUL byte"
  | notUtf8 => "stream did not contain valid UTF-8"
  | unlisted path cause =>
    let reason := match cause.system? with
      | some (code, _) => s!"{cause.wording} (os error {code})"
      | none => cause.wording
    s!"IO error for operation on {path}: {reason}"

def message (f : FileFault) : String :=
  match f.system? with
  | some (code, _) => s!"{f.wording} (os error {code})"
  | none => f.wording

/-- The fault with all its parts, for one that ends the program before it has begun its work. -/
def detail (f : FileFault) : String :=
  match f.system? with
  | some (code, kind) =>
    "Os \x7b code: " ++ toString code ++ ", kind: " ++ kind ++ ", message: \"" ++ f.wording ++
      "\" \x7d"
  | none =>
    let kind := if f = notUtf8 then "InvalidData" else "InvalidInput"
    "Error \x7b kind: " ++ kind ++ ", message: \"" ++ f.wording ++ "\" \x7d"

end FileFault

inductive Fault where
  | malformed (report : Peg.Report)
  | invalidValue (defect : Defect)
  | emptyFormation
  | missingSequences (owner : Owner) (names missing : List String)
  /-- From a name along includes back to that name. -/
  | cyclicInclude (chain : List String)
  | duplicateDeclaration (name : String)
  | unresolvedInclude (owner : Owner)
  | incompatible (expectation : String)
  | unknownRule (name : String)
  | pathNotFound (path : String)
  | unreadable (fault : FileFault)
  /-- No text brings this about; matching has a bound that no document reaches. -/
  | unfinished
deriving DecidableEq, Repr

namespace Fault

def message : Fault → String
  | malformed report => s!"Parser Error when parsing {report.message}"
  | invalidValue defect => s!"Invalid value `{defect.text}`"
  | emptyFormation =>
    "Either a load balancer with pool definitions or box definitions must be present"
  | missingSequences owner names missing =>
    let all := ", ".intercalate names
    let absent := ", ".intercalate missing
    s!"Named sequence does not exist for {owner.label}: names = {all}, missing = {absent}"
  | cyclicInclude chain =>
    s!"Named sequences include each other in a cycle: " ++ " -> ".intercalate chain
  | duplicateDeclaration name => s!"Named sequence `{name}` is declared more than once"
  | unresolvedInclude owner => s!"Bootstrap sequence for {owner.label} still contains an include"
  | incompatible expectation =>
    s!"Types of captured values are incompatible `{expectation}`"
  | unknownRule name => s!"no rule named {name}"
  | pathNotFound path => s!"The path `{path}` does not exist"
  | unreadable fault => s!"I/O error when reading {fault.message}"
  | unfinished => "Matching took more steps than any document needs"

/-- Semantic faults are found in what the text says, after its form was recognized. -/
def isSemantic : Fault → Bool
  | emptyFormation | missingSequences .. | cyclicInclude _ | duplicateDeclaration _
  | unresolvedInclude _ | invalidValue _ => true
  | _ => false

end Fault

end Fleet
