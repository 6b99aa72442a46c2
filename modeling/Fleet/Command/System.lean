import Fleet.Command.Execution
import Fleet.Files
/-!
What the commands rely on a system for: it answers about the files of a tree as they are, and walks
the tree as it was asked to. Which paths it takes is for the system to say.
-/

namespace Fleet.Command
open OsText Fleet.Tree

variable {σ α β : Type}

/-- In a state the program comes to an answer and leaves the state as it was. -/
def Answers (x : StateM σ α) (s : σ) (a : α) : Prop := Id.run (x.run s) = (a, s)

theorem Answers.pure {s : σ} (a : α) : Answers (Pure.pure a) s a := rfl

theorem Answers.bind {x : StateM σ α} {f : α → StateM σ β} {s : σ} {a : α} {b : β}
    (hx : Answers x s a) (hf : Answers (f a) s b) : Answers (x >>= f) s b := by
  have hrun : Id.run ((x >>= f).run s) =
      Id.run ((f (Id.run (x.run s)).1).run (Id.run (x.run s)).2) := rfl
  rw [Answers, hrun, hx]
  exact hf

namespace Host

/-- What the system says is at a path. -/
def kindAt (host : Host (StateM σ)) (s : σ) (path : OsText) : Except FileFault Kind :=
  (Id.run ((host.stat path).run s)).1

/-- The system has the tree at the path. It may refuse a path, and refuses then what is below it
as well. -/
structure Shows (host : Host (StateM σ)) (s : σ) (path : OsText) (t : Tree) : Prop where
  /-- Nothing changes when it is asked what is at a path. -/
  still : ∀ p, Answers (host.stat p) s (host.kindAt s p)
  kind : ∀ {names u found}, t.Holds names u → host.kindAt s (path.pathTo names) = .ok found →
    found = u.kind
  lead : ∀ {names more u v found}, t.Holds names u → u.Holds more v →
    host.kindAt s (path.pathTo (names ++ more)) = .ok found →
    ∃ found, host.kindAt s (path.pathTo names) = .ok found
  content : ∀ {names content}, t.Holds names (file content) →
    host.kindAt s (path.pathTo names) = .ok .file →
    Answers (host.read (path.pathTo names)) s (.ok content)

/-- What a walk of a tree yields: a directory before what is in it, siblings in the order asked for,
and nothing of what is not kept or is below it. A directory that the system refuses is not listed,
and its refusal is behind it. -/
inductive Visits (host : Host (StateM σ)) (s : σ) (before : OsText → OsText → Bool)
    (keep : OsText → Bool) : OsText → Tree → List (Except FileFault OsText) → Prop where
  | passed {path : OsText} {t : Tree} (hk : keep path = false) : Visits host s before keep path t []
  | file {path : OsText} {content : ByteArray} (hk : keep path = true) :
      Visits host s before keep path (file content) [.ok path]
  | dir {path : OsText} {found : Kind} {entries siblings : List (OsText × Tree)}
      {yields : OsText × Tree → List (Except FileFault OsText)} (hk : keep path = true)
      (hl : host.kindAt s path = .ok found) (hs : siblings.Perm entries)
      (ho : siblings.Pairwise fun a b => before (path.join a.1) (path.join b.1) = true)
      (hy : ∀ e ∈ entries, Visits host s before keep (path.join e.1) e.2 (yields e)) :
      Visits host s before keep path (dir entries) (.ok path :: siblings.flatMap yields)
  | unlisted {path : OsText} {e : FileFault} {entries : List (OsText × Tree)}
      (hk : keep path = true) (hl : host.kindAt s path = .error e) :
      Visits host s before keep path (dir entries) [.ok path, .error (.unlisted path.shown e)]

/-- The system walks the tree in any order of paths, and keeps of it whatever it is to keep. -/
def Walks (host : Host (StateM σ)) (s : σ) (path : OsText) (t : Tree) : Prop :=
  ∀ (before : OsText → OsText → Bool) (keeps : OsText → StateM σ Bool) (keep : OsText → Bool),
    (∀ a b c, before a b = true → before b c = true → before a c = true) →
    (∀ a b, before a b = true ∨ before b a = true) → (∀ p, Answers (keeps p) s (keep p)) →
    ∃ yields, Answers (host.walk before keeps path) s yields ∧
      Visits host s before keep path t yields

end Host

/-- What validating a tree at a path is to come across, with the names that lead to it, of which the
last is one for formations. The system takes the path of a file. It takes the path up to a directory
that is told with a fault, but not that of the directory itself. -/
inductive Meets (host : Host (StateM σ)) (s : σ) (path : OsText) (t : Tree) :
    List OsText → Except FileFault ByteArray → Prop where
  | file {names : List OsText} {content : ByteArray} (h : t.Holds names (file content))
      (ht : ∀ name ∈ names.getLast?, isFormationName name = true)
      (hs : host.kindAt s (path.pathTo names) = .ok .file) : Meets host s path t names (.ok content)
  | dir {names : List OsText} {entries : List (OsText × Tree)} {e : FileFault}
      (h : t.Holds names (dir entries)) (ht : ∀ name ∈ names.getLast?, isFormationName name = true)
      (hs : host.kindAt s (path.pathTo names.dropLast) = .ok .dir)
      (hl : host.kindAt s (path.pathTo names) = .error e) : Meets host s path t names (.error e)

end Fleet.Command
