import Mathlib.Data.List.Nodup
import Fleet.Files
/-!
Paths that are made of other paths by names. The name of such a path is the last of them
(`fileName_pathTo`), and what stands below a place is found at the path to that place with the names
behind it, unless the path is refused (`locate_pathTo`).
-/

namespace Fleet.OsText
open Fleet.Tree

variable {path name : OsText} {names more : List OsText}

/-! ## Text -/

theorem toByteArray_ofText (text : String) : (ofText text).toByteArray = text.toUTF8 :=
  text.utf8Encode_toList

theorem text?_ofText (text : String) : (ofText text).text? = some text := by
  rw [text?, toByteArray_ofText]
  exact dif_pos text.isValidUTF8

/-- Text is shown as it is. -/
theorem shown_ofText (text : String) : (ofText text).shown = text := by
  rw [shown, text?_ofText, Option.getD_some]

theorem ofText_append (a b : String) : ofText (a ++ b) = ofText a ++ ofText b := by
  simp [ofText]

theorem ofText_slashes (n : Nat) :
    ofText (String.ofList (List.replicate n '/')) = List.replicate n slash := by
  have h : String.utf8EncodeChar '/' = [slash] := by decide +kernel
  simp [ofText, List.flatMap_replicate, h]

/-! ## One name more -/

theorem join_eq_append (path name : OsText) :
    ∃ tail, path.join name = path ++ (tail ++ name) ∧ (tail = [] ∨ tail = [slash]) := by
  unfold join
  split
  · exact ⟨[], rfl, .inl rfl⟩
  · exact ⟨[slash], rfl, .inr rfl⟩

/-- A slash comes before the name, unless the path ends with one. -/
theorem join_eq (hp : path ≠ []) (name : OsText) :
    ∃ lead, path.join name = lead ++ slash :: name ∧ (path = lead ∨ path = lead ++ [slash]) := by
  unfold join
  split
  · next h =>
    have hlast : path.getLast? = some slash := by simpa [hp] using h
    obtain ⟨lead, rfl⟩ := List.getLast?_eq_some_iff.1 hlast
    exact ⟨lead, by simp, .inr rfl⟩
  · exact ⟨path, rfl, .inl rfl⟩

theorem split_name (hn : IsFileName name) : name.split = ([name], false) := by
  rw [split, List.splitOn_eq_singleton hn.noSlash]
  simp [hn.nonempty]

theorem split_join (path : OsText) (hn : IsFileName name) :
    (path.join name).split = (path.split.1 ++ [name], false) := by
  by_cases hp : path = []
  · subst hp
    exact split_name hn
  · obtain ⟨lead, hjoin, hlead⟩ := join_eq hp name
    have hname : name.splitOn slash = [name] := List.splitOn_eq_singleton hn.noSlash
    have hfilter : path.split.1 = (lead.splitOn slash).filter fun p => !p.isEmpty := by
      unfold split
      rcases hlead with rfl | rfl
      · rfl
      · rw [List.splitOn_append_cons_self]
        simp
    have hempty : name.isEmpty = false := by simpa using hn.nonempty
    rw [split, hjoin, List.splitOn_append_cons_self, hname, hfilter]
    simp [hempty]

theorem fileName_of_split (hn : IsFileName name) (h : path.split.1 = more ++ [name]) :
    path.fileName = name := by
  obtain ⟨hdot, hdots⟩ := hn.plain
  have hlast : (path.split.1.filter (· ≠ dot)).getLast? = some name := by
    rw [h, List.filter_append]
    simp [hdot]
  rw [fileName, hlast]
  exact if_neg hdots

theorem fileName_join (path : OsText) (hn : IsFileName name) : (path.join name).fileName = name :=
  fileName_of_split hn (congrArg Prod.fst (split_join path hn))

theorem start_append (site : Site) (hp : path ≠ []) (tail : OsText) :
    start site (path ++ tail) = start site path := by
  obtain ⟨c, cs, rfl⟩ := List.exists_cons_of_ne_nil hp
  rfl

theorem length_lt_join (path : OsText) (hn : IsFileName name) :
    path.length < (path.join name).length := by
  obtain ⟨tail, hjoin, -⟩ := join_eq_append path name
  have hpos := List.length_pos_of_ne_nil hn.nonempty
  rw [hjoin, List.length_append, List.length_append]
  omega

/-! ## More names -/

theorem pathTo_append (path : OsText) (names more : List OsText) :
    path.pathTo (names ++ more) = (path.pathTo names).pathTo more := List.foldl_append

theorem pathTo_eq_append (path : OsText) (names : List OsText) :
    ∃ tail, path.pathTo names = path ++ tail := by
  induction names generalizing path with
  | nil => exact ⟨[], (List.append_nil _).symm⟩
  | cons name names ih =>
    obtain ⟨first, hfirst, -⟩ := join_eq_append path name
    obtain ⟨tail, htail⟩ := ih (path.join name)
    refine ⟨first ++ name ++ tail, ?_⟩
    rw [← List.append_assoc, ← hfirst]
    exact htail

theorem pathTo_ne_nil (hp : path ≠ []) (names : List OsText) : path.pathTo names ≠ [] := by
  obtain ⟨tail, htail⟩ := pathTo_eq_append path names
  simp [htail, hp]

theorem split_pathTo (path : OsText) (hn : ∀ name ∈ names, IsFileName name) (hne : names ≠ []) :
    (path.pathTo names).split = (path.split.1 ++ names, false) := by
  induction names generalizing path with
  | nil => exact absurd rfl hne
  | cons name names ih =>
    have hfirst := split_join path (hn name (by simp))
    by_cases hnames : names = []
    · subst hnames
      exact hfirst
    · have hrest := ih (path.join name) (fun n hm => hn n (by simp [hm])) hnames
      rw [hfirst] at hrest
      simpa [pathTo] using hrest

/-- The name of a path is the last of those that it was made of. -/
theorem fileName_pathTo (path : OsText) (hn : ∀ name ∈ names, IsFileName name)
    (hlast : names.getLast? = some name) : (path.pathTo names).fileName = name := by
  obtain ⟨lead, rfl⟩ := List.getLast?_eq_some_iff.1 hlast
  have hsplit := split_pathTo path hn (by simp)
  rw [← List.append_assoc] at hsplit
  exact fileName_of_split (hn name (by simp)) (congrArg Prod.fst hsplit)

theorem start_pathTo (site : Site) (hp : path ≠ []) (names : List OsText) :
    start site (path.pathTo names) = start site path := by
  obtain ⟨tail, htail⟩ := pathTo_eq_append path names
  rw [htail, start_append site hp]

end Fleet.OsText

namespace Fleet.Tree
open OsText

variable {site : Site} {root t u : Tree} {above : List Tree} {entries : List (OsText × Tree)}
  {path name : OsText} {names more : List OsText}

/-! ## Genuine trees -/

theorem Genuine.entry (h : (Tree.dir entries).Genuine) {e : OsText × Tree} (he : e ∈ entries) :
    IsFileName e.1 ∧ e.2.Genuine := by
  cases h with
  | dir _ named below => exact ⟨named e he, below e he⟩

theorem Genuine.distinct (h : (Tree.dir entries).Genuine) : (entries.map Prod.fst).Nodup := by
  cases h with
  | dir distinct => exact distinct

theorem Genuine.lookup (h : (Tree.dir entries).Genuine) (he : (name, t) ∈ entries) :
    entries.lookup name = some t := by
  have distinct := h.distinct
  obtain ⟨before, after, rfl⟩ := List.append_of_mem he
  refine List.lookup_eq_some_iff.2 ⟨before, after, rfl, fun p hp => ?_⟩
  rw [List.map_append, List.nodup_append] at distinct
  rw [bne_iff_ne]
  exact (distinct.2.2 p.1 (List.mem_map_of_mem hp) name (by simp)).symm

theorem Genuine.holds (h : t.Genuine) (hf : t.Holds names u) :
    (∀ name ∈ names, IsFileName name) ∧ u.Genuine := by
  induction hf with
  | here => exact ⟨by simp, h⟩
  | inside he _ ih =>
    obtain ⟨hname, hbelow⟩ := h.entry he
    obtain ⟨hnames, hu⟩ := ih hbelow
    exact ⟨List.forall_mem_cons.2 ⟨hname, hnames⟩, hu⟩

theorem Holds.trans (h : t.Holds names u) {v : Tree} (h' : u.Holds more v) :
    t.Holds (names ++ more) v := by
  induction h with
  | here => exact h'
  | inside he _ ih => exact .inside he (ih h')

/-- Names that lead somewhere do so up to the last one. -/
theorem Holds.dropLast (h : t.Holds names u) : ∃ v, t.Holds names.dropLast v := by
  induction h with
  | here t => exact ⟨t, .here t⟩
  | @inside entries name t u names he _ ih =>
    obtain ⟨v, hv⟩ := ih
    cases names with
    | nil => exact ⟨_, .here _⟩
    | cons => exact ⟨v, .inside he hv⟩

/-! ## Following names -/

/-- What names lead to is genuine like the trees they lead through. -/
theorem Genuine.follow (h : t.Genuine) (ha : ∀ v ∈ above, v.Genuine)
    (hf : Tree.follow site above t names = .ok u) : u.Genuine := by
  fun_induction Tree.follow site above t names with
  | case1 above t =>
    cases hf
    exact h
  | case2 => cases hf
  | case3 above entries names ih => exact ih h ha hf
  | case4 entries names _ ih => exact ih h (by simp) hf
  | case5 entries names v above _ ih =>
    exact ih (ha v (by simp)) (fun w hw => ha w (by simp [hw])) hf
  | case6 => cases hf
  | case7 => cases hf
  | case8 above entries name names _ _ _ t hlookup ih =>
    obtain ⟨before, after, rfl, -⟩ := List.lookup_eq_some_iff.1 hlookup
    have he : (name, t) ∈ before ++ (name, t) :: after := by simp
    exact ih (h.entry he).2 (List.forall_mem_cons.2 ⟨h, ha⟩) hf

/-- Names after others are followed from where those lead. -/
theorem follow_append (h : follow site above t names = .ok u) (more : List OsText) :
    ∃ above', follow site above t (names ++ more) = follow site above' u more := by
  fun_induction follow site above t names with
  | case1 above t =>
    cases h
    exact ⟨above, rfl⟩
  | case2 => cases h
  | case3 above entries names ih =>
    obtain ⟨above', h'⟩ := ih h
    exact ⟨above', by simpa only [List.cons_append, follow, if_true] using h'⟩
  | case4 entries names hdot ih =>
    obtain ⟨above', h'⟩ := ih h
    exact ⟨above', by simpa only [List.cons_append, follow, if_neg hdot, if_true] using h'⟩
  | case5 entries names v above hdot ih =>
    obtain ⟨above', h'⟩ := ih h
    exact ⟨above', by simpa only [List.cons_append, follow, if_neg hdot, if_true] using h'⟩
  | case6 => cases h
  | case7 => cases h
  | case8 above entries name names hdot hdots hshort t hlookup ih =>
    obtain ⟨above', h'⟩ := ih h
    exact ⟨above', by
      simpa only [List.cons_append, follow, if_neg hdot, if_neg hdots, if_neg hshort, hlookup]
        using h'⟩

/-- Names that lead down from a tree lead to what it holds, or one of them is too long. -/
theorem follow_of_holds (h : t.Genuine) (hf : t.Holds names u) (above : List Tree) :
    follow site above t names =
      if ∀ name ∈ names, name.length ≤ site.longestName then .ok u else .error .nameTooLong := by
  induction hf generalizing above with
  | here t => cases t <;> simp [follow]
  | @inside entries name t u names he _ ih =>
    obtain ⟨hname, hbelow⟩ := h.entry he
    obtain ⟨hdot, hdots⟩ := hname.plain
    simp only [follow, if_neg hdot, if_neg hdots]
    by_cases hshort : name.length ≤ site.longestName
    · rw [if_neg (Nat.not_lt.2 hshort), h.lookup he]
      simp [ih hbelow, hshort]
    · rw [if_pos (Nat.lt_of_not_le hshort), if_neg]
      simp [hshort]

/-! ## Places -/

theorem checkPath_eq_ok :
    checkPath site path = .ok () ↔ 0 ∉ path ∧ path ≠ [] ∧ path.length ≤ site.longestPath := by
  unfold checkPath
  by_cases hnul : 0 ∈ path
  · simp [hnul]
  · by_cases hempty : path = []
    · simp [hempty]
    · by_cases hlong : site.longestPath < path.length
      · simp [hnul, hempty, hlong]
      · simp [hnul, hempty, hlong, Nat.le_of_not_lt hlong]

/-- The system takes the front of a path that it takes. -/
theorem checkPath_of_append {tail : OsText} (hp : path ≠ [])
    (h : checkPath site (path ++ tail) = .ok ()) : checkPath site path = .ok () := by
  obtain ⟨hnul, -, hlong⟩ := checkPath_eq_ok.1 h
  rw [List.length_append] at hlong
  exact checkPath_eq_ok.2 ⟨fun h => hnul (by simp [h]), hp, by omega⟩

theorem locate_eq_ok :
    root.locate site path = .ok t ↔ checkPath site path = .ok () ∧
      follow site [] root (start site path ++ path.split.1) = .ok t ∧
      (path.split.2 = true → t.kind = .dir) := by
  unfold locate
  cases checkPath site path with
  | error e => simp [bind, Except.bind]
  | ok _ =>
    cases hf : follow site [] root (start site path ++ path.split.1) with
    | error e => simp [bind, Except.bind, hf]
    | ok u =>
      cases u with
      | dir entries =>
        simp only [bind, Except.bind, hf, Except.ok.injEq, true_and]
        constructor
        · rintro rfl
          exact ⟨rfl, fun _ => rfl⟩
        · exact fun h => h.1
      | file content =>
        simp only [bind, Except.bind, hf, Except.ok.injEq, true_and]
        cases hd : path.split.2 with
        | false => simp
        | true =>
          simp only [if_true, reduceCtorEq, forall_const, false_iff, not_and]
          rintro rfl
          simp [kind]

/-- A path of which every name ends at a file or a directory leads where its names do. -/
theorem locate_of_split (h : path.split.2 = false) :
    root.locate site path =
      (checkPath site path).bind fun _ =>
        follow site [] root (start site path ++ path.split.1) := by
  unfold locate
  cases checkPath site path with
  | error e => rfl
  | ok _ =>
    simp only [bind, Except.bind, h]
    cases follow site [] root (start site path ++ path.split.1) with
    | error e => rfl
    | ok t => cases t <;> rfl

/-- What the top holds is at any path of the names that lead to it. -/
theorem locate_of_holds (h : root.Genuine) (hf : root.Holds names t)
    (hc : checkPath site path = .ok ()) (hn : start site path ++ path.split.1 = names)
    (hs : ∀ name ∈ names, name.length ≤ site.longestName)
    (hd : path.split.2 = true → t.kind = .dir) : root.locate site path = .ok t :=
  locate_eq_ok.2 ⟨hc, by rw [hn, follow_of_holds h hf, if_pos hs], hd⟩

theorem Genuine.locate (h : root.Genuine) (ht : root.locate site path = .ok t) : t.Genuine := by
  obtain ⟨-, hf, -⟩ := locate_eq_ok.1 ht
  exact h.follow (by simp) hf

/-- What is below a place is at the path to that place with the names behind it, unless the path or
a name is too long. -/
theorem locate_pathTo (h : root.Genuine) (ht : root.locate site path = .ok t)
    (hf : t.Holds names u) :
    root.locate site (path.pathTo names) =
      (checkPath site (path.pathTo names)).bind fun _ =>
        if ∀ name ∈ names, name.length ≤ site.longestName then .ok u
        else .error .nameTooLong := by
  obtain ⟨hcheck, hfollow, -⟩ := locate_eq_ok.1 ht
  obtain ⟨-, hp, -⟩ := checkPath_eq_ok.1 hcheck
  by_cases hne : names = []
  · subst hne
    cases hf
    have hcheck : checkPath site (path.pathTo []) = .ok () := hcheck
    rw [hcheck]
    simpa [pathTo, Except.bind] using ht
  · have hgenuine := h.locate ht
    have hsplit := split_pathTo path (hgenuine.holds hf).1 hne
    obtain ⟨above, happend⟩ := follow_append hfollow names
    rw [locate_of_split (congrArg Prod.snd hsplit), hsplit, start_pathTo site hp,
      ← List.append_assoc, happend]
    simp only [follow_of_holds hgenuine hf]

theorem eq_of_locate_pathTo {w : Tree} (h : root.Genuine) (ht : root.locate site path = .ok t)
    (hf : t.Holds names u) (hw : root.locate site (path.pathTo names) = .ok w) :
    checkPath site (path.pathTo names) = .ok () ∧
      (∀ name ∈ names, name.length ≤ site.longestName) ∧ w = u := by
  rw [locate_pathTo h ht hf] at hw
  cases hcheck : checkPath site (path.pathTo names) with
  | error e => simp [hcheck, Except.bind] at hw
  | ok _ =>
    rw [hcheck] at hw
    by_cases hshort : ∀ name ∈ names, name.length ≤ site.longestName
    · simp only [Except.bind, if_pos hshort, Except.ok.injEq] at hw
      exact ⟨rfl, hshort, hw.symm⟩
    · simp only [Except.bind, if_neg hshort, reduceCtorEq] at hw

/-- If the system takes a path, it takes the paths to what is on the way. -/
theorem locate_of_pathTo {v w : Tree} (h : root.Genuine) (ht : root.locate site path = .ok t)
    (hf : t.Holds names u) (hmore : u.Holds more v)
    (hw : root.locate site (path.pathTo (names ++ more)) = .ok w) :
    root.locate site (path.pathTo names) = .ok u := by
  obtain ⟨hcheck, hshort, -⟩ := eq_of_locate_pathTo h ht (hf.trans hmore) hw
  obtain ⟨-, hp, -⟩ := checkPath_eq_ok.1 (locate_eq_ok.1 ht).1
  obtain ⟨tail, htail⟩ := pathTo_eq_append (path.pathTo names) more
  rw [pathTo_append, htail] at hcheck
  have hnames : ∀ name ∈ names, name.length ≤ site.longestName :=
    fun name hm => hshort name (List.mem_append_left _ hm)
  rw [locate_pathTo h ht hf, checkPath_of_append (pathTo_ne_nil hp names) hcheck]
  simp only [Except.bind, if_pos hnames]

/-! ## Slashes at the end -/

theorem split_slashes (path : OsText) (n : Nat) :
    (path ++ List.replicate n slash).split.1 = path.split.1 := by
  induction n with
  | zero => simp
  | succ n ih =>
    rw [← ih]
    unfold split
    simp [List.replicate_succ', ← List.append_assoc, List.splitOn_append_cons_self]

/-- A directory is also at its path with slashes behind, as many as the system takes. -/
theorem locate_slashes (ht : root.locate site path = .ok (dir entries)) {n : Nat}
    (hn : path.length + n ≤ site.longestPath) :
    root.locate site (path ++ List.replicate n slash) = .ok (dir entries) := by
  obtain ⟨hcheck, hfollow, -⟩ := locate_eq_ok.1 ht
  obtain ⟨hnul, hp, -⟩ := checkPath_eq_ok.1 hcheck
  refine locate_eq_ok.2 ⟨checkPath_eq_ok.2 ⟨?_, ?_, ?_⟩, ?_, fun _ => rfl⟩
  · simp [hnul, List.mem_replicate, slash]
  · simp [hp]
  · simpa using hn
  · rw [start_append site hp, split_slashes]
    exact hfollow

end Fleet.Tree
