import Fleet.Proofs.Accepted.Refusals
import Fleet.Proofs.Command.Desks
import Fleet.Proofs.Command.Surveys
import Fleet.Proofs.Document.Termination
import Fleet.Proofs.Formation.Fixpoints
/-!
Validating a directory and reading each of its files as a tree agree. A text is refused for what it
says or for its form and for nothing else (`compile_concernsText`), so the command that tells these
faults from others tells the same of a file as the one that does not (`Validate.agrees_of_shows`).
-/

namespace Fleet.Command
open Document Peg Formation OsText

variable {σ α β : Type} {s : σ} {host : Host (StateM σ)} {location : String}
  {entries : List (OsText × Tree)} {options : ParseTree}

/-! ## Faults of a text -/

theorem parse_concernsText (source text : String) :
    FaultsIn (fun e => concernsText e = true) (Formation.parse source text).outcome := by
  intro e h
  rw [Formation.outcome_parse] at h
  cases hrun : (grammar.run .start text).result with
  | ok nodes =>
    obtain ⟨f, rfl, -⟩ := document_of_run hrun
    rw [hrun] at h
    cases h
  | error refusal =>
    rw [hrun] at h
    obtain rfl : refusal.fault source = e := Except.error.inj h
    cases refusal with
    | malformed => rfl
    | rejected e =>
      have hsemantic : e.isSemantic = true := (refuses_of_run hrun).isSemantic
      simp [Refusal.fault, concernsText, hsemantic]
    | unfinished => exact absurd hrun (run_ne_unfinished grammar_notLeftRecursive _ _)

theorem concernsText_of_resolving {e : Fault} (h : e.OfResolving) :
    concernsText e = true := by
  cases h <;> rfl

/-- Neither what reads a text nor what resolves it brings about any other fault, and what checks it
finds none. -/
theorem compile_concernsText (source text : String) :
    FaultsIn (fun e => concernsText e = true) (Formation.compile source text).outcome := by
  intro e h
  rcases Journaled.outcome_bind_eq_error.1 h with h | ⟨parsed, hparsed, h⟩
  · exact parse_concernsText source text e h
  rcases Journaled.outcome_bind_eq_error.1 h with h | ⟨resolved, hresolved, h⟩
  · exact concernsText_of_resolving (resolve_faultsIn parsed e h)
  have hcheck : resolved.check = .ok () := check_ok_iff.2 (complete_of_resolve hparsed hresolved).2
  simp [hcheck, Except.bind] at h

/-! ## One file -/

namespace Validate

/-- What is wrong with a text, if anything is. -/
def complaint? (source text : String) : Option String :=
  match (Formation.compile source text).outcome with
  | .ok _ => none
  | .error e => some e.message

def statusLine (path : String) : Option String → String
  | none => s!"{path} Status = PASS\n"
  | some _ => s!"{path} Status = FAIL\n"

def errorLine (path : String) : Option String → String
  | none => ""
  | some message => s!"{path}: {message}\n"

/-- The number for files of which some are complained about. -/
def number (complaints : List (Option String)) : Nat :=
  if complaints.all Option.isNone then 0 else 19

end Validate

/-- How reading a tree ends where there is something wrong with its text, or nothing. -/
def ParseTree.EndsWith (finish : Finish) : Option String → Prop
  | none => finish.status = .ok 0
  | some message => finish.status = .ok 5 ∧ finish.out = "" ∧
      finish.err = "Parsing error handling cloud formation, Error = " ++ message ++ "\n"

/-- A tree that is resolved and not merged is refused for what is wrong with its text. -/
theorem ParseTree.execute_endsWith (hu : options.unresolved = false)
    (ha : options.applyDefaults = false) (text : String) :
    EndsWith (options.execute (.ok text)) (Validate.complaint? options.source text) := by
  have hcompile : (options.compile text).outcome = _ := outcome_compile_resolved hu ha
  cases h : (Formation.compile options.source text).outcome with
  | ok f =>
    rw [h] at hcompile
    simp [Validate.complaint?, h, EndsWith, execute, hcompile, Finish.success]
  | error e =>
    rw [h] at hcompile
    have htext : concernsText e = true := compile_concernsText _ _ e h
    simp [Validate.complaint?, h, EndsWith, execute, hcompile, htext, Finish.invalidText, toString]

/-! ## Files one after the other -/

namespace Validate

/-- What checking a text comes to, told of what is written for the files after it. -/
theorem checkText_eq (name text : String) (others : Finish) :
    let finish := checkText name text others
    finish.status = others.status.map (fun n => if (complaint? name text).isNone then n else 19) ∧
      finish.out = statusLine name (complaint? name text) ++ others.out ∧
      finish.err = errorLine name (complaint? name text) ++ others.err := by
  dsimp only
  rw [checkText]
  cases h : (Formation.compile name text).outcome with
  | ok f =>
    have hstatus : others.status.map (fun n => n) = others.status := by
      cases others.status <;> rfl
    simp [complaint?, h, statusLine, errorLine, hstatus]
  | error e => simp [complaint?, h, statusLine, errorLine, Finish.failure]

/-- Each file has its line, and with a complaint one more. -/
theorem checkFiles_texts (files : List (OsText × String))
    (h : ∀ x ∈ files, Answers (host.read x.1) s (.ok x.2.toUTF8)) :
    ∃ finish, Answers (checkFiles host (files.map Prod.fst)) s finish ∧
      finish.status = .ok (number (files.map fun x => complaint? x.1.shown x.2)) ∧
      finish.out =
        String.join (files.map fun x => statusLine x.1.shown (complaint? x.1.shown x.2)) ∧
      finish.err =
        String.join (files.map fun x => errorLine x.1.shown (complaint? x.1.shown x.2)) := by
  induction files with
  | nil => exact ⟨_, .pure _, rfl, rfl, rfl⟩
  | cons x files ih =>
    obtain ⟨others, hothers, hstatus, hout, herr⟩ := ih fun y hy => h y (by simp [hy])
    obtain ⟨hfirst, hfirstOut, hfirstErr⟩ := checkText_eq x.1.shown x.2 others
    refine ⟨checkText x.1.shown x.2 others, ?_, ?_, ?_, ?_⟩
    · rw [List.map_cons, checkFiles]
      refine (h x (by simp)).bind ?_
      rw [fileText, decode_toUTF8]
      exact hothers.bind (.pure _)
    · rw [hfirst, hstatus]
      simp only [number, Except.map, List.map_cons, List.all_cons]
      cases complaint? x.1.shown x.2 <;> rfl
    · simp [hfirstOut, hout]
    · simp [hfirstErr, herr]

end Validate

/-! ## Files of a directory -/

/-- The paths that were found, unless there is a fault among them. -/
def collected : List (Except FileFault OsText) → Except Fault (List OsText)
  | [] => .ok []
  | .error e :: _ => .error (.unreadable e)
  | .ok path :: others => (collected others).map (path :: ·)

/-- To select files is to collect what came of the walk. -/
theorem selectFiles_answers (hs : ∀ p, Answers (host.stat p) s (host.kindAt s p))
    (yields : List (Except FileFault OsText)) :
    Answers (host.selectFiles yields) s (collected (came host s yields)) := by
  induction yields with
  | nil => exact .pure _
  | cons x yields ih =>
    cases x with
    | error e => exact .pure _
    | ok path =>
      rw [Host.selectFiles]
      refine (hs path).bind (ih.bind ?_)
      cases hk : isKind .file (host.kindAt s path) with
      | true =>
        have hcame : came host s (.ok path :: yields) = .ok path :: came host s yields :=
          List.filter_cons_of_pos hk
        rw [hcame]
        exact .pure _
      | false =>
        have hcame : came host s (.ok path :: yields) = came host s yields :=
          List.filter_cons_of_neg (by simp [hk])
        have hmap : (collected (came host s yields)).map (fun paths => paths) =
            collected (came host s yields) := by
          cases collected (came host s yields) <;> rfl
        rw [hcame]
        simpa [hmap] using Answers.pure (collected (came host s yields))

/-- Either a fault came of the walk, and then it is told, or all that came are paths. -/
theorem collected_cases (xs : List (Except FileFault OsText)) :
    (∃ e, .error e ∈ xs ∧ collected xs = .error (.unreadable e)) ∨
      ∃ paths, xs = paths.map .ok ∧ collected xs = .ok paths := by
  induction xs with
  | nil => exact .inr ⟨[], rfl, rfl⟩
  | cons x xs ih =>
    cases x with
    | error e => exact .inl ⟨e, by simp, rfl⟩
    | ok path =>
      rcases ih with ⟨e, he, hcollected⟩ | ⟨paths, rfl, hcollected⟩
      · exact .inl ⟨e, by simp [he], by rw [collected, hcollected]; rfl⟩
      · exact .inr ⟨path :: paths, rfl, by rw [collected, hcollected]; rfl⟩

theorem alphabetical_trans (a b c : OsText) (h : alphabetical a b = true)
    (h' : alphabetical b c = true) : alphabetical a c = true := by
  rw [alphabetical, decide_eq_true_iff] at *
  exact List.le_trans h h'

theorem alphabetical_total (a b : OsText) : alphabetical a b = true ∨ alphabetical b a = true := by
  simp only [alphabetical, decide_eq_true_iff]
  exact List.le_total _ _

/-- The files that are looked for in a directory are those that are to be met in it. -/
theorem formationFiles_answers (hgenuine : (Tree.dir entries).Genuine)
    (hshows : host.Shows s (ofText location) (.dir entries))
    (hwalks : host.Walks s (ofText location) (.dir entries))
    (hdir : host.kindAt s (ofText location) = .ok .dir) :
    ∃ xs met, Answers (formationFiles host location) s (collected xs) ∧
      Surveys (ofText location) xs (Meets host s (ofText location) (.dir entries)) met := by
  let keep (p : OsText) := isKind .dir (host.kindAt s p) || isFormationName p.fileName
  have hkeeps (p : OsText) :
      Answers (host.keeps (fun path => isFormationName path.fileName) p) s (keep p) :=
    (hshows.still p).bind (.pure _)
  obtain ⟨yields, hyields, hvisits⟩ := hwalks alphabetical _ keep alphabetical_trans
    alphabetical_total hkeeps
  obtain ⟨met, hmet⟩ := exists_surveys hvisits (fun _ => rfl) hshows hgenuine
  have hstat : Answers (host.stat (ofText location)) s (.ok .dir) := hdir ▸ hshows.still _
  refine ⟨_, met, hstat.bind (hstat.bind (hyields.bind (selectFiles_answers hshows.still yields))),
    hmet.eq_map, fun names found => ?_, hmet.ordered⟩
  rw [hmet.mem_iff, meetsAt_iff hgenuine hdir rfl]

/-! ## Both commands -/

namespace Validate

/-- The files of a directory, by the names that lead to each, with what is wrong with it: validating
tells it, and so does reading the tree of the file alone, however it is to be printed. -/
structure Agrees (host : Host (StateM σ)) (s : σ) (location : String) (t : Tree)
    (files : List (List OsText × Option String)) : Prop where
  listed : ∀ names, names ∈ files.map Prod.fst ↔
    ∃ content, Meets host s (ofText location) t names (.ok content)
  ordered : files.Pairwise fun x y => x.1 < y.1
  validated : ∃ finish, Answers ((Invocation.validate location).run host) s finish ∧
    finish.status = .ok (number (files.map Prod.snd)) ∧
    finish.out =
      String.join (files.map fun x => statusLine ((ofText location).pathTo x.1).shown x.2) ∧
    finish.err =
      String.join (files.map fun x => errorLine ((ofText location).pathTo x.1).shown x.2)
  trees : ∀ x ∈ files, ∀ path, ofText path = (ofText location).pathTo x.1 →
    ∀ options : ParseTree, options.location = some path → options.unresolved = false →
      options.applyDefaults = false →
        ∃ finish, Answers ((Invocation.parseTree options).run host) s finish ∧
          ParseTree.EndsWith finish x.2

variable {t : Tree} {texts : List (List OsText × String)}
  {met : List (List OsText × Except FileFault ByteArray)}

/-- A fault that is told is that of a directory that was met. -/
theorem fault_of_told {e : FileFault} (h : .error e ∈ met.map (told (ofText location))) :
    ∃ names cause, (names, .error cause) ∈ met ∧
      e = .unlisted ((ofText location).pathTo names).shown cause := by
  obtain ⟨⟨names, _ | _⟩, hx, htold⟩ := List.mem_map.1 h
  · exact ⟨names, _, hx, (Except.error.inj htold).symm⟩
  · cases htold

/-- What is met is texts, where no directory is refused. -/
theorem exists_texts (ht : t.IsText)
    (hnone : ∀ names cause, ¬ Meets host s (ofText location) t names (.error cause))
    (h : ∀ x ∈ met, Meets host s (ofText location) t x.1 x.2) :
    ∃ texts : List (List OsText × String), met = texts.map fun x => (x.1, .ok x.2.toUTF8) := by
  induction met with
  | nil => exact ⟨[], rfl⟩
  | cons x met ih =>
    obtain ⟨texts, rfl⟩ := ih fun y hy => h y (by simp [hy])
    have hx := h x (by simp)
    obtain ⟨names, cause | content⟩ := x
    · exact absurd hx (hnone names cause)
    · cases hx with
      | file hx =>
        obtain ⟨text, rfl⟩ := ht _ _ hx
        exact ⟨(names, text) :: texts, rfl⟩

/-- A text that is met is the one that is read. -/
theorem read_of_meets {names : List OsText} {text : String}
    (hshows : host.Shows s (ofText location) t)
    (h : Meets host s (ofText location) t names (.ok text.toUTF8)) :
    Answers (host.read ((ofText location).pathTo names)) s (.ok text.toUTF8) := by
  cases h with
  | file h _ hs => exact hshows.content h hs

/-- The texts that are met are those that are checked, at their paths. -/
theorem agrees_of_texts (hshows : host.Shows s (ofText location) t)
    (hfiles : Answers (formationFiles host location) s
      (.ok (texts.map fun x => (ofText location).pathTo x.1)))
    (hmem : ∀ names found, (names, found) ∈ texts.map (fun x => (x.1, .ok x.2.toUTF8)) ↔
      Meets host s (ofText location) t names found)
    (hordered : texts.Pairwise fun x y => x.1 < y.1) :
    Agrees host s location t
      (texts.map fun x => (x.1, complaint? ((ofText location).pathTo x.1).shown x.2)) := by
  have hread (x : List OsText × String) (hx : x ∈ texts) :
      Answers (host.read ((ofText location).pathTo x.1)) s (.ok x.2.toUTF8) :=
    read_of_meets hshows ((hmem _ _).1 (List.mem_map_of_mem hx))
  refine ⟨?listed, ?ordered, ?validated, ?trees⟩
  case listed =>
    intro names
    simp only [← hmem, List.mem_map, Prod.mk.injEq, Except.ok.injEq, List.map_map]
    constructor
    · rintro ⟨x, hx, rfl⟩
      exact ⟨_, x, hx, rfl, rfl⟩
    · rintro ⟨_, x, hx, rfl, -⟩
      exact ⟨x, hx, rfl⟩
  case ordered => exact List.pairwise_map.2 hordered
  case validated =>
    have hreads : ∀ x ∈ texts.map (fun x => ((ofText location).pathTo x.1, x.2)),
        Answers (host.read x.1) s (.ok x.2.toUTF8) := List.forall_mem_map.2 hread
    obtain ⟨finish, hfinish, hstatus, hout, herr⟩ := checkFiles_texts _ hreads
    rw [List.map_map] at hfinish hstatus hout herr
    exact ⟨_, hfiles.bind (hfinish.bind (.pure _)), by simpa [Function.comp_def] using hstatus,
      by simpa [Function.comp_def] using hout, by simpa [Function.comp_def] using herr⟩
  case trees =>
    intro x hx path hpath options ho hu ha
    obtain ⟨y, hy, rfl⟩ := List.mem_map.1 hx
    have hsource : options.source = ((ofText location).pathTo y.1).shown := by
      rw [← hpath, shown_ofText, ParseTree.source, ho]
      rfl
    refine ⟨options.execute (.ok y.2), ?_, hsource ▸ ParseTree.execute_endsWith hu ha y.2⟩
    rw [Invocation.run, ho]
    have hcontent := hread y hy
    rw [← hpath] at hcontent
    refine hcontent.bind ?_
    rw [fileText, decode_toUTF8]
    exact .pure _

section
variable (hgenuine : (Tree.dir entries).Genuine)
  (hshows : host.Shows s (ofText location) (.dir entries))
  (hwalks : host.Walks s (ofText location) (.dir entries))
  (hdir : host.kindAt s (ofText location) = .ok .dir)

include hgenuine hshows hwalks hdir

/-- With a directory to be met that the system refuses, validating fails for one of those. -/
theorem fails_of_meets {names : List OsText} {cause : FileFault}
    (h : Meets host s (ofText location) (.dir entries) names (.error cause)) :
    ∃ names cause finish,
      Meets host s (ofText location) (.dir entries) names (.error cause) ∧
      Answers ((Invocation.validate location).run host) s finish ∧
      finish.status =
        .error (.unreadable (.unlisted ((ofText location).pathTo names).shown cause)) ∧
      finish.out = "" ∧ finish.err = "" := by
  obtain ⟨xs, met, hfiles, hmet⟩ := formationFiles_answers hgenuine hshows hwalks hdir
  rcases collected_cases xs with ⟨e, he, hcollected⟩ | ⟨paths, rfl, -⟩
  · rw [hmet.eq_map] at he
    obtain ⟨names, cause, hx, rfl⟩ := fault_of_told he
    rw [hcollected] at hfiles
    exact ⟨names, cause, _, (hmet.mem_iff _ _).1 hx, hfiles.bind (.pure _), rfl, rfl, rfl⟩
  · have htold : told (ofText location) (names, .error cause) ∈ paths.map Except.ok := by
      rw [hmet.eq_map]
      exact List.mem_map_of_mem ((hmet.mem_iff _ _).2 h)
    simp [told] at htold

/-- Where no directory is refused, all that came of the walk are texts. -/
theorem agrees_of_unrefused (htext : (Tree.dir entries).IsText)
    (h : ∀ names cause, ¬ Meets host s (ofText location) (.dir entries) names (.error cause)) :
    ∃ files, Agrees host s location (.dir entries) files := by
  obtain ⟨xs, met, hfiles, hmet⟩ := formationFiles_answers hgenuine hshows hwalks hdir
  rcases collected_cases xs with ⟨e, he, -⟩ | ⟨paths, rfl, hcollected⟩
  · rw [hmet.eq_map] at he
    obtain ⟨names, cause, hx, -⟩ := fault_of_told he
    exact absurd ((hmet.mem_iff _ _).1 hx) (h names cause)
  · obtain ⟨texts, rfl⟩ := exists_texts htext h fun x hx => (hmet.mem_iff _ _).1 hx
    have hinj : Function.Injective (Except.ok : OsText → Except FileFault OsText) :=
      fun _ _ => Except.ok.inj
    have hpaths : paths = texts.map fun x => (ofText location).pathTo x.1 := by
      refine List.map_injective_iff.2 hinj ?_
      rw [hmet.eq_map, List.map_map, List.map_map]
      rfl
    have hordered := hmet.ordered
    rw [List.pairwise_map] at hordered
    rw [hcollected, hpaths] at hfiles
    exact ⟨_, agrees_of_texts hshows hfiles hmet.mem_iff hordered⟩

end

/-- A directory of texts is given. Validating it fails with nothing written if below it there is a
directory with a name for formations that the system refuses. Otherwise it agrees, file by file,
with reading trees. -/
theorem agrees_of_shows (hgenuine : (Tree.dir entries).Genuine) (htext : (Tree.dir entries).IsText)
    (hshows : host.Shows s (ofText location) (.dir entries))
    (hwalks : host.Walks s (ofText location) (.dir entries))
    (hdir : host.kindAt s (ofText location) = .ok .dir) :
    (∃ names cause finish,
        Meets host s (ofText location) (.dir entries) names (.error cause) ∧
        Answers ((Invocation.validate location).run host) s finish ∧
        finish.status =
          .error (.unreadable (.unlisted ((ofText location).pathTo names).shown cause)) ∧
        finish.out = "" ∧ finish.err = "") ∨
      (∀ names cause, ¬ Meets host s (ofText location) (.dir entries) names (.error cause)) ∧
        ∃ files, Agrees host s location (.dir entries) files := by
  by_cases h : ∃ names cause, Meets host s (ofText location) (.dir entries) names (.error cause)
  · obtain ⟨names, cause, h⟩ := h
    exact .inl (fails_of_meets hgenuine hshows hwalks hdir h)
  · simp only [not_exists] at h
    exact .inr ⟨h, agrees_of_unrefused hgenuine hshows hwalks hdir htext h⟩

/-- In a directory of files, what is met is such files. -/
theorem of_meets (hfiles : ∀ e ∈ entries, ∃ content, e.2 = .file content)
    (hdir : host.kindAt s (ofText location) = .ok .dir) {names : List OsText}
    {found : Except FileFault ByteArray}
    (h : Meets host s (ofText location) (.dir entries) names found) :
    ∃ e ∈ entries, isFormationName e.1 = true ∧
      host.kindAt s ((ofText location).join e.1) = .ok .file ∧ ∃ content, found = .ok content := by
  cases h with
  | file h ht hs =>
    cases h with
    | @inside _ name u _ names he h =>
      obtain ⟨content, rfl⟩ := hfiles _ he
      cases h
      exact ⟨_, he, ht name rfl, hs, _, rfl⟩
  | dir h _ _ hl =>
    cases h with
    | here => cases hdir.symm.trans hl
    | inside he h =>
      obtain ⟨content, hcontent⟩ := hfiles _ he
      obtain rfl := hcontent
      cases h

/-- One formation, and a file that is none. -/
theorem agrees_of_shows_web :
    let text := "box: 'web', 1 instance with 'debian'\n  vm-flavor: 'small'\n" ++
      "  bootstrap-sequence:\n    file: 'motd'\n"
    let entries := [(ofText "web.fdsl", Tree.file text.toUTF8),
      (ofText "notes", Tree.file "todo".toUTF8)]
    let desk : Desk := ⟨.dir [(ofText "d", .dir entries)], .empty⟩
    (Tree.dir entries).Genuine ∧ (Tree.dir entries).IsText ∧
      Desk.host.Shows desk (ofText "/d") (.dir entries) ∧
      Desk.host.Walks desk (ofText "/d") (.dir entries) ∧
      Desk.host.kindAt desk (ofText "/d") = .ok .dir ∧
      ∃ files, Agrees Desk.host desk "/d" (.dir entries) files ∧
        [ofText "web.fdsl"] ∈ files.map Prod.fst := by
  intro text entries desk
  have hentries : (Tree.dir entries).Genuine :=
    .dir (by decide +kernel) (by decide +kernel) (by simp [entries, Tree.Genuine.file])
  have hroot : desk.root.Genuine :=
    .dir (by decide +kernel) (by decide +kernel) (by simpa using hentries)
  have hheld : desk.root.Holds [ofText "d"] (.dir entries) := .inside (by simp) (.here _)
  have hlocate : desk.root.locate .top (ofText "/d") = .ok (.dir entries) :=
    Tree.locate_of_holds hroot hheld (by decide +kernel) (by decide +kernel) (by decide +kernel)
      fun _ => rfl
  have htext : (Tree.dir entries).IsText :=
    Tree.isText_dir (by simp [entries, -String.toUTF8_eq_toByteArray, Tree.isText_file])
  have hshows := Desk.shows hroot hlocate
  have hwalks := Desk.walks hroot hlocate
  have hdir : Desk.host.kindAt desk (ofText "/d") = .ok .dir :=
    Desk.kindAt_eq_ok.2 ⟨_, hlocate, rfl⟩
  have hfiles : ∀ e ∈ entries, ∃ content, e.2 = .file content := by simp [entries]
  obtain ⟨files, hagrees⟩ :=
    ((agrees_of_shows hentries htext hshows hwalks hdir).resolve_left
      fun ⟨names, cause, finish, hmeets, _⟩ => by
        obtain ⟨_, _, _, _, _, hfound⟩ := of_meets hfiles hdir hmeets
        cases hfound).2
  have hweb : (Tree.dir entries).Holds [ofText "web.fdsl"] (.file text.toUTF8) :=
    .inside (by simp [entries]) (.here _)
  have hkind : Desk.host.kindAt desk ((ofText "/d").pathTo [ofText "web.fdsl"]) = .ok .file :=
    Desk.kindAt_eq_ok.2 ⟨.file text.toUTF8, Tree.locate_of_holds hroot (hheld.trans hweb)
      (by decide +kernel) (by decide +kernel) (by decide +kernel) (by decide +kernel), rfl⟩
  exact ⟨hentries, htext, hshows, hwalks, hdir, files, hagrees,
    (hagrees.listed _).2 ⟨text.toUTF8, .file hweb (by decide +kernel) hkind⟩⟩

/-! ## Formations that are passed over -/

/-- Validating a directory of texts comes to nothing at all, and there is a file in it with a name
that ends like those of formations. -/
structure Overlooks (host : Host (StateM σ)) (s : σ) (location : String) (t : Tree)
    (name : OsText) : Prop where
  genuine : t.Genuine
  text : t.IsText
  shown : host.Shows s (ofText location) t
  walked : host.Walks s (ofText location) t
  found : host.kindAt s (ofText location) = .ok .dir
  held : ∃ content, t.Holds [name] (.file content)
  formation : ofText ".formation" <:+ name
  silent : ∃ finish, Answers ((Invocation.validate location).run host) s finish ∧
    finish.status = .ok 0 ∧ finish.out = ""

/-- The directory `d` at the top, with one entry. -/
def single (name : OsText) (t : Tree) : Desk := ⟨.dir [(ofText "d", .dir [(name, t)])], .empty⟩

section
variable {name : OsText} {n : Nat} (hname : IsFileName name) (hgenuine : t.Genuine)
  (hlocation : ofText location = ofText "d" ++ List.replicate n slash) (hn : n < 4095)

include hname hgenuine

theorem genuine_single : (Tree.dir [(name, t)]).Genuine :=
  .dir (by simp) (by simpa using hname) (by simpa using hgenuine)

theorem genuine_root_single : (single name t).root.Genuine :=
  have hd : IsFileName (ofText "d") := by decide +kernel
  .dir (by simp) (List.forall_mem_singleton.2 hd) (by simpa using genuine_single hname hgenuine)

include hlocation hn

/-- The directory is at its path with slashes behind. -/
theorem locate_single :
    (single name t).root.locate .top (ofText location) = .ok (.dir [(name, t)]) := by
  have hheld : (single name t).root.Holds [ofText "d"] (.dir [(name, t)]) :=
    .inside (by simp) (.here _)
  rw [hlocation]
  refine Tree.locate_slashes (Tree.locate_of_holds (genuine_root_single hname hgenuine) hheld
    (by decide +kernel) (by decide +kernel) (by decide +kernel) fun _ => rfl) ?_
  have hlength : (ofText "d").length = 1 := by decide +kernel
  have hmost : Site.top.longestPath = 4095 := rfl
  omega

end

/-- A file of a name for formations that does not count as one is passed over in silence. -/
theorem overlooks_single {name : OsText} {n : Nat} (hname : IsFileName name) (text : String)
    (hlocation : ofText location = ofText "d" ++ List.replicate n slash) (hn : n < 4095)
    (hending : ofText ".formation" <:+ name)
    (hpassed : isFormationName name = true →
      Desk.host.kindAt (single name (.file text.toUTF8)) ((ofText location).join name) ≠
        .ok .file) :
    Overlooks Desk.host (single name (.file text.toUTF8)) location
      (.dir [(name, .file text.toUTF8)]) name := by
  have hgenuine : (Tree.file text.toUTF8).Genuine := .file _
  have hentries := genuine_single hname hgenuine
  have hlocate := locate_single hname hgenuine hlocation hn
  have hshows := Desk.shows (genuine_root_single hname hgenuine) hlocate
  have hwalks := Desk.walks (genuine_root_single hname hgenuine) hlocate
  have hdir := Desk.kindAt_eq_ok.2 ⟨_, hlocate, rfl⟩
  have htext : (Tree.dir [(name, .file text.toUTF8)]).IsText :=
    Tree.isText_dir (List.forall_mem_singleton.2 (Tree.isText_file text))
  have hunmet (names : List OsText) (found : Except FileFault ByteArray) :
      ¬ Meets Desk.host (single name (.file text.toUTF8)) (ofText location)
        (.dir [(name, .file text.toUTF8)]) names found := by
    intro h
    obtain ⟨e, he, hformation, hkind, -⟩ := of_meets (by simp) hdir h
    obtain rfl := List.mem_singleton.1 he
    exact hpassed hformation hkind
  obtain ⟨files, hagrees⟩ :=
    agrees_of_unrefused hentries hshows hwalks hdir htext fun names _ => hunmet names _
  have hempty : files = [] := by
    refine List.eq_nil_iff_forall_not_mem.2 fun x hx => ?_
    obtain ⟨content, hmeets⟩ := (hagrees.listed x.1).1 (List.mem_map_of_mem hx)
    exact hunmet _ _ hmeets
  subst hempty
  obtain ⟨finish, hfinish, hstatus, hout, -⟩ := hagrees.validated
  exact ⟨hentries, htext, hshows, hwalks, hdir, ⟨_, .inside List.mem_cons_self (.here _)⟩,
    hending, finish, hfinish, hstatus, hout⟩

/-- A directory with a name for formations that the system refuses is an error, empty as it is. -/
theorem fails_single {name : OsText} {n : Nat} {e : FileFault} (hname : IsFileName name)
    (hlocation : ofText location = ofText "d" ++ List.replicate n slash) (hn : n < 4095)
    (hformation : isFormationName name = true)
    (hrefused : Desk.host.kindAt (single name (.dir [])) ((ofText location).join name) = .error e) :
    ∃ finish fault,
      Answers ((Invocation.validate location).run Desk.host) (single name (.dir [])) finish ∧
        finish.status = .error fault ∧ finish.out = "" := by
  have hgenuine : (Tree.dir []).Genuine := .dir .nil (by simp) (by simp)
  have hlocate := locate_single hname hgenuine hlocation hn
  have hroot := genuine_root_single hname hgenuine
  have hdir := Desk.kindAt_eq_ok.2 ⟨_, hlocate, rfl⟩
  have hmeets : Meets Desk.host (single name (.dir [])) (ofText location)
      (.dir [(name, .dir [])]) [name] (.error e) :=
    .dir (.inside List.mem_cons_self (.here _)) (by simpa using hformation) hdir hrefused
  obtain ⟨_, _, finish, -, hfinish, hstatus, hout, -⟩ :=
    fails_of_meets (genuine_single hname hgenuine) (Desk.shows hroot hlocate)
      (Desk.walks hroot hlocate) hdir hmeets
  exact ⟨finish, _, hfinish, hstatus, hout⟩

/-- With a path that is as long as it may be, there is no way to a file in the directory, and no
directory in it can be listed. A name that is not text is none of a formation. -/
theorem formation_passed_over :
    let text := "box: 'web', 1 instance with 'debian'\n  vm-flavor: 'small'\n" ++
      "  bootstrap-sequence:\n    file: 'motd'\n"
    let file := Tree.file text.toUTF8
    let name := ofText "x.formation"
    let odd : OsText := 0xFF :: ofText ".formation"
    let location := "d" ++ String.ofList (List.replicate 4094 '/')
    Overlooks Desk.host (single name file) location (.dir [(name, file)]) name ∧
      Overlooks Desk.host (single odd file) "d" (.dir [(odd, file)]) odd ∧
      ∃ finish fault,
        Answers ((Invocation.validate location).run Desk.host) (single name (.dir [])) finish ∧
          finish.status = .error fault ∧ finish.out = "" := by
  intro text file name odd location
  have hname : IsFileName name := by decide +kernel
  have hlocation : ofText location = ofText "d" ++ List.replicate 4094 slash := by
    rw [ofText_append, ofText_slashes]
  have hrefused (t : Tree) : ∃ e,
      Desk.host.kindAt (single name t) ((ofText location).join name) = .error e := by
    refine Desk.refuses_long ?_
    have hlonger := length_lt_join (ofText location) hname
    have hone : (ofText "d").length = 1 := by decide +kernel
    have hlength : (ofText location).length = 4095 := by
      rw [hlocation, List.length_append, List.length_replicate, hone]
    have hmost : Site.top.longestPath = 4095 := rfl
    omega
  refine ⟨?long, ?odd, ?refused⟩
  case long =>
    obtain ⟨e, he⟩ := hrefused file
    refine overlooks_single hname text hlocation (by decide) (by decide +kernel) fun _ => ?_
    rw [he]
    exact nofun
  case odd =>
    have hodd : isFormationName odd = false := by decide +kernel
    refine overlooks_single (n := 0) (by decide +kernel) text (by simp) (by decide)
      (by decide +kernel) fun h => ?_
    cases hodd.symm.trans h
  case refused =>
    obtain ⟨e, he⟩ := hrefused (.dir [])
    exact fails_single hname hlocation (by decide) (by decide +kernel) he

end Validate

end Fleet.Command
