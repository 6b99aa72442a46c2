import Fleet.Fault
import Fleet.Path
/-!
A whole file system as a value: directories with what is in them, how a path leads to one of them,
and how they are walked.
-/

namespace Fleet
open OsText

/-- A file with its bytes or a directory with what it holds. -/
inductive Tree where
  | file (content : ByteArray)
  | dir (entries : List (OsText × Tree))

/-- Where in a tree a program works, and how many bytes names and paths may have there. -/
structure Site where
  directory : List OsText
  longestName : Nat
  longestPath : Nat

/-- At the top, with as many bytes as is usual. -/
def Site.top : Site := ⟨[], 255, 4095⟩

namespace Tree

def kind : Tree → Kind
  | file _ => .file
  | dir _ => .dir

/-- What is refused of a path before anything is looked for. -/
def checkPath (site : Site) (path : OsText) : Except FileFault Unit :=
  if 0 ∈ path then .error .holdsNul
  else if path.isEmpty then .error .notFound
  else if site.longestPath < path.length then .error .nameTooLong
  else .ok ()

/-- The names that lead to where a path begins. -/
def start (site : Site) (path : OsText) : List OsText :=
  if path.head? = some slash then [] else site.directory

/-- Follows names from a tree; `above` are the directories that dots lead back to, the nearest
first. There is nothing above the top. -/
def follow (site : Site) : List Tree → Tree → List OsText → Except FileFault Tree
  | _, t, [] => .ok t
  | _, file _, _ :: _ => .error .notDirectory
  | above, dir entries, name :: names =>
    if name = dot then follow site above (dir entries) names
    else if name = dots then
      match above with
      | [] => follow site [] (dir entries) names
      | t :: above => follow site above t names
    else if site.longestName < name.length then .error .nameTooLong
    else match entries.lookup name with
      | none => .error .notFound
      | some t => follow site (dir entries :: above) t names

/-- What is at a path. A path that ends in a slash leads to a directory only. -/
def locate (site : Site) (root : Tree) (path : OsText) : Except FileFault Tree := do
  checkPath site path
  let (names, wantsDir) := path.split
  match ← follow site [] root (start site path ++ names) with
  | file content => if wantsDir then .error .notDirectory else .ok (file content)
  | dir entries => .ok (dir entries)

def stat (site : Site) (root : Tree) (path : OsText) : Except FileFault Kind :=
  (root.locate site path).map kind

def read (site : Site) (root : Tree) (path : OsText) : Except FileFault ByteArray :=
  match root.locate site path with
  | .ok (file content) => .ok content
  | .ok (dir _) => .error .isDirectory
  | .error e => .error e

/-! ## Writing -/

/-- The entries with `t` at a name, in the place of what had it or at the end. -/
def setEntry (name : OsText) (t : Tree) : List (OsText × Tree) → List (OsText × Tree)
  | [] => [(name, t)]
  | (other, u) :: rest =>
    if other = name then (name, t) :: rest else (other, u) :: setEntry name t rest

/-- The names that lead straight to where other names do: dots are walked. -/
def straighten : List OsText → List OsText → List OsText
  | done, [] => done.reverse
  | done, name :: names =>
    if name = dot then straighten done names
    else if name = dots then straighten done.tail names
    else straighten (name :: done) names

/-- The names that lead from the top straight to a path's place. -/
def namesTo (site : Site) (path : OsText) : List OsText :=
  straighten [] (start site path ++ path.split.1)

/-- Puts a file at names that lead straight to it, making directories on the way. -/
def put (content : ByteArray) : List OsText → Tree → Tree
  | [], _ => file content
  | name :: names, t =>
    let entries := match t with
      | dir entries => entries
      | file _ => []
    dir (setEntry name (put content names ((entries.lookup name).getD (dir []))) entries)

/-- Makes an empty directory at names that lead straight to it, unless one is there. -/
def makeDir : List OsText → Tree → Tree
  | [], dir entries => dir entries
  | [], file _ => dir []
  | name :: names, t =>
    let entries := match t with
      | dir entries => entries
      | file _ => []
    dir (setEntry name (makeDir names ((entries.lookup name).getD (dir []))) entries)

/-- Whether a file can be made at a path, or is there already: its directory has to exist and no
directory may have its place. -/
def checkCreate (site : Site) (root : Tree) (path : OsText) : Except FileFault Unit := do
  checkPath site path
  let (names, wantsDir) := path.split
  match ← follow site [] root (start site path ++ names.dropLast) with
  | file _ => .error .notDirectory
  | dir entries =>
    let last := names.getLast?.getD dot
    if wantsDir || last = dot || last = dots then .error .isDirectory
    else if site.longestName < last.length then .error .nameTooLong
    else match entries.lookup last with
      | some (dir _) => .error .isDirectory
      | _ => .ok ()

/-- The tree with a file's content at a path at which a file can be. -/
def write (root : Tree) (path : String) (content : ByteArray) (site : Site := .top) : Tree :=
  root.put content (namesTo site (ofText path))

/-- The tree with an empty directory at a path, unless one is there. -/
def mkdir (root : Tree) (path : String) (site : Site := .top) : Tree :=
  root.makeDir (namesTo site (ofText path))

/-! ## Walking -/

section
variable {m : Type → Type} [Monad m] (refusal? : OsText → Option FileFault)
  (before : OsText → OsText → Bool) (keep : OsText → m Bool)

mutual

/-- The paths that a walk yields, a directory's before those of what is in it, and siblings in the
order given. What is not kept is passed over with all that is in it. A directory that is refused
is followed by that refusal. -/
def visit (path : OsText) : Tree → m (List (Except FileFault OsText))
  | file _ => do
    let kept ← keep path
    return if kept then [.ok path] else []
  | dir entries => do
    let kept ← keep path
    if kept then
      match refusal? path with
      | some e => return [.ok path, .error (.unlisted path.shown e)]
      | none =>
        let found ← visitEntries path entries
        return .ok path :: (found.mergeSort fun a b => before a.1 b.1).flatMap (·.2)
    else return []

/-- What each entry of a directory contributes, with its path. -/
def visitEntries (path : OsText) :
    List (OsText × Tree) → m (List (OsText × List (Except FileFault OsText)))
  | [] => return []
  | e :: rest => do
    let found ← visitEntry path e
    let others ← visitEntries path rest
    return (join path e.1, found) :: others

def visitEntry (path : OsText) : OsText × Tree → m (List (Except FileFault OsText))
  | (name, t) => visit (join path name) t

end

end

/-- The refusal of a path, if it is refused. -/
def refusal? (site : Site) (root : Tree) (path : OsText) : Option FileFault :=
  match root.locate site path with
  | .ok _ => none
  | .error e => some e

/-- The files below the top, with their bytes, by the paths that are kept. -/
def walk (keep : OsText → Bool) (path : String) (root : Tree) : List (String × ByteArray) :=
  let found := root.visit (m := Id) (fun _ => none) (fun a b => decide (a ≤ b))
    (fun p => pure (keep p)) (ofText path)
  found.filterMap fun
    | .ok p => (root.read .top p).toOption.map (p.shown, ·)
    | .error _ => none

end Tree

end Fleet
