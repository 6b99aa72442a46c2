import Fleet.Fault
import Fleet.Path
/-!
What the commands ask the system for, and the files that they look for with its help.
-/

namespace Fleet.Command
open OsText

/-- Where a command finds its files and its input, and puts its output. -/
structure Host (m : Type → Type) where
  /-- What is at a path. -/
  stat : OsText → m (Except FileFault Kind)
  /-- The bytes of a file. -/
  read : OsText → m (Except FileFault ByteArray)
  /-- The entries that a walk from a path yields. Siblings come in the order of the first function,
  and an entry that the second one does not keep is passed over with all that is in it. -/
  walk : (OsText → OsText → Bool) → (OsText → m Bool) → OsText →
    m (List (Except FileFault OsText))
  /-- Makes an empty file, in the place of one that is there. -/
  create : String → m (Except FileFault Unit)
  write : String → String → m Unit
  input : m ByteArray

/-- The answer is that there is something of the kind. -/
def isKind (kind : Kind) : Except FileFault Kind → Bool
  | .ok found => found == kind
  | .error _ => false

namespace Host
variable {m : Type → Type} [Monad m] (host : Host m)

/-- A walk goes into every directory. Of what is none, it keeps what is wanted. -/
def keeps (wanted : OsText → Bool) (path : OsText) : m Bool := do
  let found ← host.stat path
  return isKind .dir found || wanted path

/-- Those of the entries that are files, unless one of them is a fault. -/
def selectFiles : List (Except FileFault OsText) → m (Except Fault (List OsText))
  | [] => return .ok []
  | .error e :: _ => return .error (.unreadable e)
  | .ok path :: entries => do
    let found ← host.stat path
    let others ← selectFiles entries
    return others.map fun paths => if isKind .file found then path :: paths else paths

/-- The wanted files that a walk from a location comes to. -/
def filesBelow (before : OsText → OsText → Bool) (wanted : OsText → Bool) (location : String) :
    m (Except Fault (List OsText)) := do
  match ← host.stat (ofText location) with
  | .error _ => return .error (.pathNotFound location)
  | .ok _ =>
    let entries ← host.walk before (host.keeps wanted) (ofText location)
    host.selectFiles entries

end Host

def alphabetical (a b : OsText) : Bool := decide (a.fileName ≤ b.fileName)

/-- Names of files that hold formations. A name that is no text is none of them. -/
def isFormationName (name : OsText) : Bool :=
  match name.text? with
  | some text => text.endsWith ".formation" || text.endsWith ".fdsl"
  | none => false

/-- The files to look at: a file itself, whatever its name, or those in a directory that have a name
for formations. -/
def formationFiles {m : Type → Type} [Monad m] (host : Host m) (location : String) :
    m (Except Fault (List OsText)) := do
  let found ← host.stat (ofText location)
  if isKind .file found then return .ok [ofText location]
  else host.filesBelow alphabetical (fun path => isFormationName path.fileName) location

end Fleet.Command
