import Fleet.Disk
/-!
What a tree holds, said without walking it or looking a path up: which names lead to a file.
-/

namespace Fleet
open OsText

/-- A name that an entry of a directory can have: it is one name of a path and leads into the
directory. -/
structure IsFileName (name : OsText) : Prop where
  nonempty : name ≠ []
  plain : name ≠ dot ∧ name ≠ dots
  noSlash : slash ∉ name

theorem isFileName_iff {name : OsText} :
    IsFileName name ↔ name ≠ [] ∧ (name ≠ dot ∧ name ≠ dots) ∧ slash ∉ name :=
  ⟨fun h => ⟨h.nonempty, h.plain, h.noSlash⟩, fun ⟨h₁, h₂, h₃⟩ => ⟨h₁, h₂, h₃⟩⟩

instance (name : OsText) : Decidable (IsFileName name) := decidable_of_iff _ isFileName_iff.symm

namespace Tree

/-- A tree as a disk has it: entries of one directory have different names. -/
inductive Genuine : Tree → Prop where
  | file (content : ByteArray) : Genuine (file content)
  | dir {entries : List (OsText × Tree)} (distinct : (entries.map Prod.fst).Nodup)
      (named : ∀ e ∈ entries, IsFileName e.1) (below : ∀ e ∈ entries, Genuine e.2) :
      Genuine (dir entries)

/-- The names lead down from the tree to another. -/
inductive Holds : Tree → List OsText → Tree → Prop where
  | here (t : Tree) : Holds t [] t
  | inside {entries : List (OsText × Tree)} {name : OsText} {t u : Tree} {names : List OsText}
      (he : (name, t) ∈ entries) (h : Holds t names u) : Holds (dir entries) (name :: names) u

/-- The files hold text, all of them. -/
def IsText (t : Tree) : Prop :=
  ∀ names content, t.Holds names (file content) → ∃ text : String, content = text.toUTF8

theorem isText_file (text : String) : (file text.toUTF8).IsText := by
  intro names content h
  cases h
  exact ⟨text, rfl⟩

theorem isText_dir {entries : List (OsText × Tree)} (h : ∀ e ∈ entries, e.2.IsText) :
    (dir entries).IsText := by
  intro names content hc
  cases hc with
  | inside he hc => exact h _ he _ _ hc

end Tree

/-- The path that names make behind another one. -/
def OsText.pathTo (path : OsText) (names : List OsText) : OsText := names.foldl join path

end Fleet
