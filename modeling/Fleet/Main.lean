import Fleet.Command.Program
/-!
The program on the files and streams of the system.
-/

namespace Fleet.Main
open Command

/-- The fault behind an error of the system, which tells some of its numbers negated. -/
def faultOf : IO.Error → FileFault
  | .noFileOrDirectory .. => .notFound
  | .permissionDenied .. => .notPermitted
  | .inappropriateType _ code _ => if code = 20 ∨ code = 0 - 20 then .notDirectory else .isDirectory
  | .invalidArgument .. => .nameTooLong
  | _ => .notFound

def attempt {α : Type} (path : OsText) (action : String → IO α) : IO (Except FileFault α) := do
  match Tree.checkPath .top path with
  | .error e => return .error e
  | .ok () =>
    try return .ok (← action path.shown)
    catch e => return .error (faultOf e)

def stat (path : String) : IO Kind := do
  match (← ((← IO.currentDir) / path).metadata).type with
  | .dir => return .dir
  | .file => return .file
  | _ => return .other

/-- The directories at a path and below, with what is in them. -/
partial def load (path : String) : IO Tree := do
  let site := (← IO.currentDir) / path
  if ← site.isDir then
    let entries ← site.readDir
    return .dir (← entries.toList.mapM fun e => do
      let name := OsText.ofText e.fileName
      return (name, ← load ((OsText.ofText path).join name).shown))
  else return .file .empty

def host : Host IO where
  stat path := attempt path stat
  read path := attempt path fun path => IO.FS.readBinFile path
  walk before keep path := do
    let refusal? (path : OsText) := match Tree.checkPath .top path with
      | .ok () => none
      | .error e => some e
    (← load path.shown).visit refusal? before keep path
  create path := attempt (OsText.ofText path) fun path => IO.FS.writeFile path ""
  write path text := IO.FS.writeFile path text
  input := do (← IO.getStdin).readBinToEnd

end Fleet.Main

def main (args : List String) : IO UInt32 := do
  let exit ← Fleet.Command.runProgram Fleet.Main.host args
  IO.print exit.out
  IO.eprint exit.err
  return UInt32.ofNat exit.code
