import Fleet.Command.Program
import Fleet.Command.System
import Fleet.Proofs.Disk.Paths
/-!
A file system that is a value is a system as the commands rely on one: what is at a path that it
takes it shows there (`Desk.shows`), and it walks it as it was asked to (`Desk.walks`).
-/

namespace Fleet.Command
open OsText Fleet.Tree

/-! ## Walking a tree -/

section
variable {σ : Type} {host : Host (StateM σ)} {s : σ} {refusal? : OsText → Option FileFault}
  {before : OsText → OsText → Bool} {keeps : OsText → StateM σ Bool} {keep : OsText → Bool}
  {t : Tree} {path : OsText}

theorem visitEntries_answers {entries : List (OsText × Tree)}
    {yields : OsText × Tree → List (Except FileFault OsText)}
    (h : ∀ e ∈ entries,
      Answers (Tree.visit refusal? before keeps (path.join e.1) e.2) s (yields e)) :
    Answers (visitEntries refusal? before keeps path entries) s
      (entries.map fun e => (path.join e.1, yields e)) := by
  induction entries with
  | nil =>
    rw [visitEntries]
    exact .pure _
  | cons e entries ih =>
    have hfirst := h e (by simp)
    have hothers := ih fun e he => h e (by simp [he])
    rw [visitEntries, visitEntry]
    exact hfirst.bind (hothers.bind (.pure _))

/-- What entries contribute comes in the order of their paths when it is sorted by those. -/
theorem exists_siblings
    (htrans : ∀ a b c, before a b = true → before b c = true → before a c = true)
    (htotal : ∀ a b, before a b = true ∨ before b a = true) (path : OsText)
    (entries : List (OsText × Tree)) (yields : OsText × Tree → List (Except FileFault OsText)) :
    ∃ siblings : List (OsText × Tree), siblings.Perm entries ∧
      siblings.Pairwise (fun a b => before (path.join a.1) (path.join b.1) = true) ∧
      ((entries.map fun e => (path.join e.1, yields e)).mergeSort
        fun a b => before a.1 b.1).flatMap (·.2) = siblings.flatMap yields := by
  let order (a b : OsText × Tree) : Bool := before (path.join a.1) (path.join b.1)
  refine ⟨entries.mergeSort order, List.mergeSort_perm entries order, ?_, ?_⟩
  · refine List.pairwise_mergeSort (fun a b c => ?_) (fun a b => ?_) entries
    · exact htrans _ _ _
    · exact Bool.or_eq_true _ _ ▸ htotal _ _
  · rw [← List.map_mergeSort (r := order) (f := fun e => (path.join e.1, yields e))
      fun _ _ _ _ => rfl, List.flatMap_map]

/-- By induction on the tree: a directory that is listed adds what its entries do. -/
theorem visit_answers (hg : t.Genuine)
    (hrefuses : ∀ p e, refusal? p = some e ↔ host.kindAt s p = .error e)
    (htrans : ∀ a b c, before a b = true → before b c = true → before a c = true)
    (htotal : ∀ a b, before a b = true ∨ before b a = true)
    (hkeep : ∀ p, Answers (keeps p) s (keep p)) (path : OsText) :
    ∃ yields, Answers (t.visit refusal? before keeps path) s yields ∧
      host.Visits s before keep path t yields := by
  induction hg generalizing path with
  | file content =>
    rw [Tree.visit]
    cases hk : keep path with
    | true => exact ⟨_, (hkeep path).bind (.pure _), by simpa [hk] using .file hk⟩
    | false => exact ⟨_, (hkeep path).bind (.pure _), by simpa [hk] using .passed hk⟩
  | @dir entries _ _ _ ih =>
    rw [Tree.visit]
    cases hk : keep path with
    | false =>
      refine ⟨_, (hkeep path).bind ?_, .passed hk⟩
      rw [hk]
      exact .pure _
    | true =>
      cases hpath : host.kindAt s path with
      | error e =>
        refine ⟨_, (hkeep path).bind ?_, .unlisted hk hpath⟩
        rw [hk, (hrefuses path e).2 hpath]
        exact .pure _
      | ok found =>
        have hlisted : refusal? path = none :=
          Option.eq_none_iff_forall_ne_some.2 fun e he => by
            cases hpath.symm.trans ((hrefuses path e).1 he)
        choose! yields hyields hvisits using fun e he => ih e he (path.join e.1)
        obtain ⟨siblings, hperm, hordered, hsorted⟩ :=
          exists_siblings htrans htotal path entries yields
        refine ⟨_, (hkeep path).bind ?_, .dir hk hpath hperm hordered hvisits⟩
        rw [hk, hlisted]
        refine (visitEntries_answers hyields).bind ?_
        rw [hsorted]
        exact .pure _

end

/-! ## A file system that is a value -/

namespace Desk
variable {desk : Desk} {site : Site} {path : OsText} {t : Tree}

theorem kindAt_eq :
    (host site).kindAt desk path = (desk.root.locate site path).map kind := rfl

/-- What is said to be at a path is what is there. -/
theorem kindAt_eq_ok {found : Kind} :
    (host site).kindAt desk path = .ok found ↔
      ∃ u, desk.root.locate site path = .ok u ∧ u.kind = found := by
  rw [kindAt_eq]
  cases desk.root.locate site path <;> simp [Except.map]

theorem refusal?_eq_some {e : FileFault} :
    desk.root.refusal? site path = some e ↔ (host site).kindAt desk path = .error e := by
  rw [kindAt_eq, refusal?]
  cases desk.root.locate site path <;> simp [Except.map]

theorem refuses_long (h : site.longestPath < path.length) :
    ∃ e, (host site).kindAt desk path = .error e := by
  cases hk : (host site).kindAt desk path with
  | error e => exact ⟨e, rfl⟩
  | ok found =>
    obtain ⟨u, hu, -⟩ := kindAt_eq_ok.1 hk
    obtain ⟨-, -, hshort⟩ := checkPath_eq_ok.1 (locate_eq_ok.1 hu).1
    exact absurd h (Nat.not_lt.2 hshort)

theorem shows (hroot : desk.root.Genuine) (ht : desk.root.locate site path = .ok t) :
    (host site).Shows desk path t where
  still _ := rfl
  kind hf hk := by
    obtain ⟨w, hw, rfl⟩ := kindAt_eq_ok.1 hk
    obtain ⟨-, -, rfl⟩ := eq_of_locate_pathTo hroot ht hf hw
    rfl
  lead hf hmore hk := by
    obtain ⟨w, hw, -⟩ := kindAt_eq_ok.1 hk
    exact ⟨_, kindAt_eq_ok.2 ⟨_, locate_of_pathTo hroot ht hf hmore hw, rfl⟩⟩
  content {names content} hf hk := by
    obtain ⟨w, hw, -⟩ := kindAt_eq_ok.1 hk
    obtain ⟨-, -, rfl⟩ := eq_of_locate_pathTo hroot ht hf hw
    have hread : desk.root.read site (path.pathTo names) = .ok content := by rw [Tree.read, hw]
    exact hread ▸ rfl

theorem walks (hroot : desk.root.Genuine) (ht : desk.root.locate site path = .ok t) :
    (host site).Walks desk path t := by
  intro before keeps keep htrans htotal hkeep
  obtain ⟨yields, hyields, hvisits⟩ :=
    visit_answers (hroot.locate ht) (fun _ _ => refusal?_eq_some) htrans htotal hkeep path
  refine ⟨yields, ?_, hvisits⟩
  have hget : Answers (get : StateM Desk Desk) desk desk := rfl
  refine hget.bind ?_
  dsimp only
  rw [ht]
  exact hyields

end Desk

end Fleet.Command
