import Fleet.Command.System
import Fleet.Proofs.Disk.Paths
/-!
The walk of a tree comes to what is to be met in it and to nothing else that counts, each once, in
the order of the names that lead to it (`Visits.exists_surveys`). What is met in a directory is met
at one of its entries (`meetsAt_dir_iff`), and what one directory adds is put together from what its
entries do.
-/

namespace Fleet.Command
open OsText Fleet.Tree

variable {σ : Type} {host : Host (StateM σ)} {s : σ} {t u : Tree} {entries : List (OsText × Tree)}
  {path name : OsText} {names more : List OsText} {keep : OsText → Bool}
  {found : Except FileFault ByteArray} {meets : List OsText → Except FileFault ByteArray → Prop}

/-! ## What is shown at an entry -/

namespace Host.Shows

/-- What is shown below a directory. -/
theorem entry (h : host.Shows s path (.dir entries)) {e : OsText × Tree} (he : e ∈ entries) :
    host.Shows s (path.join e.1) e.2 where
  still := h.still
  kind hf := h.kind (.inside he hf)
  lead {names more _ _ found} hf hmore hk := by
    have hkind : host.kindAt s (path.pathTo (e.1 :: names ++ more)) = .ok found := hk
    have hlead := h.lead (.inside he hf) hmore hkind
    exact hlead
  content hf := h.content (.inside he hf)

/-- The system takes the path of what it shows and says what it is, or refuses it. -/
theorem kind_or_refused (h : host.Shows s path t) :
    host.kindAt s path = .ok t.kind ∨ ∃ e, host.kindAt s path = .error e := by
  cases hk : host.kindAt s path with
  | error e => exact .inr ⟨e, rfl⟩
  | ok found => exact .inl (by rw [h.kind (.here t) hk])

theorem of_below {kind : Kind} (h : host.Shows s path t) (hf : t.Holds names u)
    (hk : host.kindAt s (path.pathTo names) = .ok kind) : host.kindAt s path = .ok t.kind := by
  obtain ⟨found, hfound⟩ := h.lead (.here t) hf hk
  exact hfound.trans (congrArg _ (h.kind (.here t) hfound))

end Host.Shows

/-! ## What is met at one entry -/

/-- What is met from an entry on, with the names behind the entry's own. -/
inductive MeetsAt (host : Host (StateM σ)) (s : σ) (path : OsText) (t : Tree) :
    List OsText → Except FileFault ByteArray → Prop where
  | file {names : List OsText} {content : ByteArray} (h : t.Holds names (file content))
      (ht : isFormationName (path.pathTo names).fileName = true)
      (hs : host.kindAt s (path.pathTo names) = .ok .file) :
      MeetsAt host s path t names (.ok content)
  | dir {names : List OsText} {entries : List (OsText × Tree)} {e : FileFault}
      (h : t.Holds names (dir entries))
      (ht : isFormationName (path.pathTo names).fileName = true)
      (hs : names ≠ [] → host.kindAt s (path.pathTo names.dropLast) = .ok .dir)
      (hl : host.kindAt s (path.pathTo names) = .error e) : MeetsAt host s path t names (.error e)

/-- From a directory that is there on, the last name is the name of the path. -/
theorem meetsAt_iff (hg : t.Genuine) (hd : host.kindAt s path = .ok .dir)
    (ht : t.kind = .dir) : MeetsAt host s path t names found ↔ Meets host s path t names found := by
  have hname {u : Tree} (h : t.Holds names u) (hne : names ≠ []) :
      isFormationName (path.pathTo names).fileName = true ↔
        ∀ name ∈ names.getLast?, isFormationName name = true := by
    have hlast := List.getLast?_eq_some_getLast hne
    rw [fileName_pathTo path (hg.holds h).1 hlast, hlast]
    simp
  have hfile {content : ByteArray} (h : t.Holds names (file content)) : names ≠ [] := by
    rintro rfl
    cases h
    cases ht
  have hrefused {e : FileFault} (hl : host.kindAt s (path.pathTo names) = .error e) :
      names ≠ [] := by
    rintro rfl
    cases hd.symm.trans hl
  constructor
  · intro h
    cases h with
    | file h hn hs => exact .file h ((hname h (hfile h)).1 hn) hs
    | dir h hn hs hl => exact .dir h ((hname h (hrefused hl)).1 hn) (hs (hrefused hl)) hl
  · intro h
    cases h with
    | file h hn hs => exact .file h ((hname h (hfile h)).2 hn) hs
    | dir h hn hs hl => exact .dir h ((hname h (hrefused hl)).2 hn) (fun _ => hs) hl

theorem MeetsAt.entry (hd : host.kindAt s path = .ok .dir)
    (h : MeetsAt host s path (Tree.dir entries) names found) :
    ∃ e ∈ entries, ∃ rest, names = e.1 :: rest ∧ MeetsAt host s (path.join e.1) e.2 rest found := by
  cases h with
  | file h ht hs =>
    cases h with
    | inside he h => exact ⟨_, he, _, rfl, .file h ht hs⟩
  | dir h ht hs hl =>
    cases h with
    | here => cases hd.symm.trans hl
    | @inside _ name t _ rest he h =>
      refine ⟨_, he, _, rfl, .dir h ht (fun hne => ?_) hl⟩
      have hs := hs (by simp)
      rw [List.dropLast_cons_of_ne_nil hne] at hs
      exact hs

theorem MeetsAt.dir_of_entry {e : OsText × Tree} (hd : host.kindAt s path = .ok .dir)
    (he : e ∈ entries) (h : MeetsAt host s (path.join e.1) e.2 names found) :
    MeetsAt host s path (Tree.dir entries) (e.1 :: names) found := by
  cases h with
  | file h ht hs => exact .file (.inside he h) ht hs
  | dir h ht hs hl =>
    refine .dir (.inside he h) ht (fun _ => ?_) hl
    cases names with
    | nil => exact hd
    | cons name names => exact hs (by simp)

/-- What is met in a directory is what is met at its entries. -/
theorem meetsAt_dir_iff (hd : host.kindAt s path = .ok .dir) :
    MeetsAt host s path (dir entries) names found ↔
      ∃ e ∈ entries, ∃ rest, names = e.1 :: rest ∧
        MeetsAt host s (path.join e.1) e.2 rest found := by
  constructor
  · exact MeetsAt.entry hd
  · rintro ⟨e, he, rest, rfl, h⟩
    exact h.dir_of_entry hd he

theorem meetsAt_file_iff {content : ByteArray} :
    MeetsAt host s path (file content) names found ↔ names = [] ∧ found = .ok content ∧
      isFormationName path.fileName = true ∧ host.kindAt s path = .ok .file := by
  constructor
  · intro h
    cases h with
    | file h ht hs =>
      cases h
      exact ⟨rfl, rfl, ht, hs⟩
    | dir h => cases h
  · rintro ⟨rfl, rfl, ht, hs⟩
    exact .file (.here _) ht hs

/-- Nothing is met in a directory that the system refuses, but it is itself met. -/
theorem meetsAt_refused_iff {e : FileFault} (hs : host.Shows s path (dir entries))
    (hl : host.kindAt s path = .error e) :
    MeetsAt host s path (dir entries) names found ↔
      names = [] ∧ found = .error e ∧ isFormationName path.fileName = true := by
  constructor
  · intro h
    cases h with
    | file h _ hf => cases hl.symm.trans (hs.of_below h hf)
    | dir h ht hd he =>
      cases h with
      | here =>
        cases hl.symm.trans he
        exact ⟨rfl, rfl, ht⟩
      | inside hm h =>
        obtain ⟨v, hv⟩ := (Holds.inside hm h).dropLast
        cases hl.symm.trans (hs.of_below hv (hd (by simp)))
  · rintro ⟨rfl, rfl, ht⟩
    exact .dir (.here _) ht (fun h => absurd rfl h) hl

/-- Nothing is met from an entry on that is neither a directory nor has a name for formations. -/
theorem MeetsAt.kept (hs : host.Shows s path t) (h : MeetsAt host s path t names found) :
    host.kindAt s path = .ok .dir ∨ isFormationName path.fileName = true := by
  cases h with
  | file h ht hk =>
    cases h with
    | here => exact .inr ht
    | inside he h => exact .inl (hs.of_below (.inside he h) hk)
  | dir h ht hk =>
    cases h with
    | here => exact .inr ht
    | inside he h =>
      obtain ⟨v, hv⟩ := (Holds.inside he h).dropLast
      exact .inl (hs.of_below hv (hk (by simp)))

/-! ## What counts of a walk -/

/-- The faults that a walk yields, and the paths that lead to files. -/
def came (host : Host (StateM σ)) (s : σ) (yields : List (Except FileFault OsText)) :
    List (Except FileFault OsText) :=
  yields.filter fun
    | .ok path => isKind .file (host.kindAt s path)
    | .error _ => true

/-- What is told of what was met at names behind a path. -/
def told (path : OsText) : List OsText × Except FileFault ByteArray → Except FileFault OsText
  | (names, .ok _) => .ok (path.pathTo names)
  | (names, .error e) => .error (.unlisted (path.pathTo names).shown e)

/-- What came of a walk from a path is what there is to meet, each once and in the order of the
names that lead to it. -/
structure Surveys (path : OsText) (came : List (Except FileFault OsText))
    (meets : List OsText → Except FileFault ByteArray → Prop)
    (met : List (List OsText × Except FileFault ByteArray)) : Prop where
  eq_map : came = met.map (told path)
  mem_iff : ∀ names found, (names, found) ∈ met ↔ meets names found
  ordered : met.Pairwise fun x y => x.1 < y.1

theorem Surveys.nil (h : ∀ names found, ¬ meets names found) : Surveys path [] meets [] :=
  ⟨rfl, fun names found => by simp [h names found], .nil⟩

theorem Surveys.singleton (found : Except FileFault ByteArray)
    (h : ∀ names other, meets names other ↔ names = [] ∧ other = found) :
    Surveys path [told path ([], found)] meets [([], found)] :=
  ⟨rfl, fun names other => by simp [h names other], by simp⟩

/-! ## What a directory adds -/

theorem alphabetical_join (path : OsText) {a b : OsText} (ha : IsFileName a) (hb : IsFileName b) :
    alphabetical (path.join a) (path.join b) = true ↔ a ≤ b := by
  rw [alphabetical, fileName_join path ha, fileName_join path hb, decide_eq_true_iff]

/-- Siblings with different names come in the strict order of their names. -/
theorem siblings_ordered {siblings : List (OsText × Tree)} (hg : (Tree.dir entries).Genuine)
    (hs : siblings.Perm entries)
    (ho : siblings.Pairwise fun a b => alphabetical (path.join a.1) (path.join b.1) = true) :
    siblings.Pairwise fun a b => a.1 < b.1 := by
  have hdistinct : siblings.Pairwise fun a b => a.1 ≠ b.1 :=
    List.pairwise_map.1 ((hs.map Prod.fst).nodup_iff.2 hg.distinct)
  refine (ho.and hdistinct).imp_of_mem fun {a b} ha hb h => ?_
  have hle := (alphabetical_join path (hg.entry (hs.mem_iff.1 ha)).1
    (hg.entry (hs.mem_iff.1 hb)).1).1 h.1
  exact List.not_le.1 fun hle' => h.2 (List.le_antisymm hle hle')

theorem told_cons (path name : OsText) (x : List OsText × Except FileFault ByteArray) :
    told path (name :: x.1, x.2) = told (path.join name) x := by
  obtain ⟨names, _ | _⟩ := x <;> rfl

theorem exists_surveys_dir {siblings : List (OsText × Tree)}
    {yields : OsText × Tree → List (Except FileFault OsText)}
    (hg : (Tree.dir entries).Genuine) (hd : host.kindAt s path = .ok .dir)
    (hs : siblings.Perm entries)
    (ho : siblings.Pairwise fun a b => alphabetical (path.join a.1) (path.join b.1) = true)
    (h : ∀ e ∈ entries, ∃ met, Surveys (path.join e.1) (came host s (yields e))
      (MeetsAt host s (path.join e.1) e.2) met) :
    ∃ met, Surveys path (came host s (.ok path :: siblings.flatMap yields))
      (MeetsAt host s path (Tree.dir entries)) met := by
  choose! met hmet using h
  have hcame : came host s (.ok path :: siblings.flatMap yields) =
      siblings.flatMap fun e => came host s (yields e) := by
    rw [came, List.filter_cons_of_neg (by simp [hd, isKind]), List.filter_flatMap]
    rfl
  refine ⟨siblings.flatMap fun e => (met e).map fun x => (e.1 :: x.1, x.2), ?_, ?_, ?_⟩
  · rw [hcame, List.map_flatMap]
    refine List.flatMap_congr fun e he => ?_
    rw [(hmet e (hs.mem_iff.1 he)).eq_map, List.map_map]
    exact List.map_congr_left fun x _ => (told_cons path e.1 x).symm
  · intro names found
    rw [meetsAt_dir_iff hd]
    simp only [List.mem_flatMap, List.mem_map, hs.mem_iff, Prod.mk.injEq]
    constructor
    · rintro ⟨e, he, x, hx, rfl, rfl⟩
      exact ⟨e, he, x.1, rfl, ((hmet e he).mem_iff _ _).1 hx⟩
    · rintro ⟨e, he, rest, rfl, hrest⟩
      exact ⟨e, he, (rest, found), ((hmet e he).mem_iff _ _).2 hrest, rfl, rfl⟩
  · rw [List.pairwise_flatMap]
    constructor
    · intro e he
      rw [List.pairwise_map]
      exact (hmet e (hs.mem_iff.1 he)).ordered.imp fun h =>
        List.cons_lt_cons_iff.2 (.inr ⟨rfl, h⟩)
    · refine (siblings_ordered hg hs ho).imp fun {a b} hab x hx y hy => ?_
      obtain ⟨x, -, rfl⟩ := List.mem_map.1 hx
      obtain ⟨y, -, rfl⟩ := List.mem_map.1 hy
      exact List.cons_lt_cons_iff.2 (.inl hab)

/-! ## A whole walk -/

/-- By induction on what the walk yields, whatever tree it is that is walked. -/
theorem exists_surveys {yields : List (Except FileFault OsText)}
    (hv : host.Visits s alphabetical keep path t yields)
    (hk : ∀ p, keep p = (isKind .dir (host.kindAt s p) || isFormationName p.fileName))
    (hs : host.Shows s path t) (hg : t.Genuine) :
    ∃ met, Surveys path (came host s yields) (MeetsAt host s path t) met := by
  induction hv with
  | @passed path t hkeep =>
    refine ⟨[], .nil fun names found h => ?_⟩
    rw [hk, Bool.or_eq_false_iff] at hkeep
    rcases h.kept hs with hd | hn
    · simp [hd, isKind] at hkeep
    · simp [hn] at hkeep
  | @file path content hkeep =>
    rcases hs.kind_or_refused with hf | ⟨e, he⟩
    · have hn : isFormationName path.fileName = true := by
        simpa [hk, hf, isKind, kind] using hkeep
      have hcame : came host s [.ok path] = [.ok path] := by simp [came, hf, isKind, kind]
      rw [hcame]
      exact ⟨_, .singleton (.ok content) fun names found => by
        simp [meetsAt_file_iff, hn, hf, kind]⟩
    · have hcame : came host s [.ok path] = [] := by simp [came, he, isKind]
      rw [hcame]
      exact ⟨[], .nil fun names found => by simp [meetsAt_file_iff, he]⟩
  | @dir path found entries siblings yields hkeep hl hperm ho _ ih =>
    have hd : host.kindAt s path = .ok .dir := by rw [hl, hs.kind (.here _) hl]; rfl
    exact exists_surveys_dir hg hd hperm ho fun e he => ih e he (hs.entry he) (hg.entry he).2
  | @unlisted path e entries hkeep hl =>
    have hn : isFormationName path.fileName = true := by simpa [hk, hl, isKind] using hkeep
    have hcame : came host s [.ok path, .error (.unlisted path.shown e)] =
        [.error (.unlisted path.shown e)] := by simp [came, hl, isKind]
    rw [hcame]
    exact ⟨_, .singleton (.error e) fun names found => by simp [meetsAt_refused_iff hs hl, hn]⟩

end Fleet.Command
