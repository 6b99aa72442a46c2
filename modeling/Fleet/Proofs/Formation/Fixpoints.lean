import Fleet.Proofs.Formation.Merging
/-!
Canonical text is a fixpoint of every stage from text to tree (`Formation.render_fixpoint`). What
has a text still has one after each pass over it (`HasText.apply`), hence after any run of passes
(`HasText.run`), and a pass that is made again finds nothing left to do (`resolve_resolve`,
`applyDefaults_applyDefaults`).
-/

namespace Fleet
open Document

variable {f f' : Formation} {s : Sequence} {owner : Owner} {table : Expansions}
  {source text : String}

/-! ## Passes -/

/-- What may be done to a formation that was parsed. -/
inductive Pass where
  | resolve | applyDefaults
deriving DecidableEq, Repr

namespace Pass

/-- Where resolving fails, it leaves the formation as it was. -/
def apply (f : Formation) : Pass → Formation
  | resolve =>
    match f.resolve.outcome with
    | .ok f' => f'
    | .error _ => f
  | applyDefaults => f.applyDefaults

/-- One pass after the other. -/
def run (passes : List Pass) (f : Formation) : Formation := passes.foldl apply f

end Pass

/-! ## Merging once more -/

theorem Sequence.withDefaults_withDefaults (own defaults : Sequence) :
    (own.withDefaults defaults).withDefaults defaults = own.withDefaults defaults := by
  have hnone : (defaults.filter fun p => !(own.withDefaults defaults).defines p.key) = [] := by
    rw [List.filter_eq_nil_iff]
    intro p hp
    have hdefines : defaults.defines p.key = true := List.any_eq_true.2 ⟨p, hp, by simp⟩
    simp [defines_withDefaults, hdefines]
  rw [withDefaults, hnone, List.nil_append]

namespace Formation

theorem mapSequences_mapSequences (g h : Sequence → Sequence) (f : Formation) :
    (f.mapSequences g).mapSequences h = f.mapSequences (h ∘ g) := by
  simp [mapSequences, Function.comp_def, Block.withSequence, Pool.withSequence]

theorem applyDefaults_applyDefaults (f : Formation) :
    f.applyDefaults.applyDefaults = f.applyDefaults := by
  have hdefaults : f.applyDefaults.defaults = f.defaults := rfl
  conv_lhs => rw [applyDefaults, hdefaults]
  rw [applyDefaults, mapSequences_mapSequences]
  congr 1
  funext s
  exact s.withDefaults_withDefaults f.defaults

end Formation

/-! ## Resolving once more -/

theorem expand_of_no_includes (h : s.hasIncludes = false) :
    (expand owner table s).outcome = .ok s := by
  induction s with
  | nil => rfl
  | cons p s ih =>
    obtain ⟨hp, hs⟩ : p.isInclude = false ∧ Sequence.hasIncludes s = false := by
      simpa [Sequence.hasIncludes] using h
    exact expand_cons_eq_ok.2 ⟨[p], s, rfl, ih hs, by rw [hp]; rfl⟩

theorem refill_map {α β : Type} {put : α → β → α} {get : α → β} (h : ∀ a, put a (get a) = a)
    (as : List α) (bs : List β) : refill put as (as.map get ++ bs) = as := by
  induction as with
  | nil => simp [refill]
  | cons a as ih => rw [List.map_cons, List.cons_append, refill, h, ih]

/-- Putting its own sequences into a formation changes nothing. -/
theorem Formation.withSequences_sequences (f : Formation) : f.withSequences f.sequences = f := by
  have hb : ∀ b : Block, b.withSequence b.sequence = b := fun _ => rfl
  have hp : ∀ p : Pool, p.withSequence p.sequence = p := fun _ => rfl
  have hlb : (f.withSequences f.sequences).loadBalancer = f.loadBalancer := by
    rw [withSequences, sequences_eq, List.append_assoc]
    dsimp only
    rw [refill_map hb]
    cases f.loadBalancer <;> rfl
  have hpools : (f.withSequences f.sequences).pools = f.pools := by
    rw [withSequences, sequences_eq, List.append_assoc]
    dsimp only
    rw [List.drop_left' (by simp), refill_map hp]
  have hboxes : (f.withSequences f.sequences).boxes = f.boxes := by
    rw [withSequences, sequences_eq]
    dsimp only
    rw [List.drop_left' (by simp), ← List.append_nil (f.boxes.map _), refill_map hb]
  obtain ⟨defaults, declarations, lb, pools, boxes⟩ := f
  simp only [withSequences] at hlb hpools hboxes ⊢
  rw [hlb, hpools, hboxes]

/-- A formation without includes is resolved to itself, if its declarations can be expanded. -/
theorem resolve_of_isResolved (hf : f.isResolved = true)
    (ht : (expansions f.declarations).outcome = .ok table) : f.resolve.outcome = .ok f := by
  have hnone := f.isResolved_iff.1 hf
  refine resolve_eq_ok.2 ⟨table, f.sequences, ht, ?_, f.withSequences_sequences.symm⟩
  rw [Formation.sequences, expandOwned_eq_ok, List.forall₂_map_right_iff, List.forall₂_same]
  exact fun o ho => expand_of_no_includes (hnone o.2 (mem_sequences_iff.2 ⟨o.1, ho⟩))

/-- The declarations keep their includes, so a second resolving expands them again. -/
theorem resolve_resolve (h : f.resolve.outcome = .ok f') : f'.resolve.outcome = .ok f' := by
  obtain ⟨table, _, ht, -, -⟩ := resolve_eq_ok.1 h
  rw [← resolve_declarations h] at ht
  exact resolve_of_isResolved (resolve_isResolved h) ht

/-- What resolving comes to has no includes in its blocks, and the declarations as they were. It is
resolved to itself, like any formation without includes in its blocks that is not refused. -/
theorem Formation.resolve_idempotent (f : Formation) :
    (∀ f', f.resolve.outcome = .ok f' →
      f'.isResolved = true ∧ f'.declarations = f.declarations ∧ f'.resolve.outcome = .ok f') ∧
    (f.isResolved = true →
      (∃ e, f.resolve.outcome = .error e) ∨ f.resolve.outcome = .ok f) := by
  refine ⟨fun f' h => ⟨resolve_isResolved h, resolve_declarations h, resolve_resolve h⟩, ?_⟩
  intro hf
  cases h : f.resolve.outcome with
  | error e => exact .inl ⟨e, rfl⟩
  | ok f' =>
    obtain ⟨table, _, ht, -, -⟩ := resolve_eq_ok.1 h
    exact .inr (h.symm.trans (resolve_of_isResolved hf ht))

/-- The declaration `web` keeps its include. -/
theorem Formation.resolve_idempotent_nested :
    let base : Pair := ⟨"inline", [.quoted "apt update"]⟩
    let box (s : Sequence) : Formation :=
      ⟨[], [⟨"web", [⟨"include", [.quoted "base"]⟩]⟩, ⟨"base", [base]⟩], none, [],
        [⟨⟨"db", 1, "postgres"⟩, "small", s⟩]⟩
    (box [⟨"include", [.quoted "base", .quoted "web"]⟩]).resolve.outcome =
        .ok (box [base, base]) ∧
      (box [base, base]).declarations.any (·.sequence.hasIncludes) = true ∧
      (box [base, base]).resolve.outcome = .ok (box [base, base]) := by
  intro base box
  have h : (box [⟨"include", [.quoted "base", .quoted "web"]⟩]).resolve.outcome =
      .ok (box [base, base]) := by cbv
  exact ⟨h, by decide, ((Formation.resolve_idempotent _).1 _ h).2.2⟩

/-! ## Formations that have a text -/

namespace Formation

/-- The formation can be written, and its text is not refused for having nothing to provision. -/
structure HasText (f : Formation) : Prop where
  representable : f.Representable
  machines : f.loadBalancer.isSome = true ∨ f.boxes ≠ []

theorem hasText_of_parse (h : (Formation.parse source text).outcome = .ok f) : f.HasText := by
  obtain ⟨hf, -, hne⟩ := document_of_parse h
  exact ⟨hf, hne⟩

/-- No pair is lost in merging, and those that are merged in can be written. -/
theorem representable_withDefaults {own defaults : Sequence} (ho : own.Representable)
    (hd : defaults.Writable) : (own.withDefaults defaults).Representable := by
  refine ⟨fun hnil => ho.1 (List.append_eq_nil_iff.1 hnil).2, fun p hp => ?_⟩
  exact (Sequence.mem_withDefaults hp).elim (hd p) (ho.2 p)

theorem applyDefaults_representable (hf : f.Representable) : f.applyDefaults.Representable := by
  have hblock {b : Block} (hb : b.Representable) :
      (b.withSequence (b.sequence.withDefaults f.defaults)).Representable :=
    ⟨hb.1, hb.2.1, representable_withDefaults hb.2.2 hf.defaults⟩
  refine ⟨hf.defaults, hf.declarations, fun b hb => ?_, fun p hp => ?_, fun b hb => ?_, ?_⟩
  · obtain ⟨b, hm, rfl⟩ := Option.map_eq_some_iff.1 hb
    exact hblock (hf.loadBalancer b hm)
  · obtain ⟨p, hm, rfl⟩ := List.mem_map.1 hp
    obtain ⟨hb, hl⟩ := hf.pools p hm
    exact ⟨hblock hb, hl⟩
  · obtain ⟨b, hm, rfl⟩ := List.mem_map.1 hb
    exact hblock (hf.boxes b hm)
  · simpa [applyDefaults, mapSequences] using hf.balanced

namespace HasText

theorem parse_of_render (hf : f.HasText) (source : String) :
    (Formation.parse source f.render).outcome = .ok f :=
  parse_ok_of_document hf.representable (render_document hf.representable) hf.machines

theorem resolve (hf : f.HasText) (h : f.resolve.outcome = .ok f') : f'.HasText := by
  obtain ⟨hlb, -, hboxes⟩ := resolve_blocks_iff h
  refine ⟨resolve_representable hf.representable h, ?_⟩
  rw [hlb, hboxes]
  exact hf.machines

theorem applyDefaults (hf : f.HasText) : f.applyDefaults.HasText := by
  refine ⟨applyDefaults_representable hf.representable, ?_⟩
  simpa [Formation.applyDefaults, mapSequences] using hf.machines

/-- One pass leaves a formation with a text. -/
theorem apply (hf : f.HasText) (pass : Pass) : (pass.apply f).HasText := by
  cases pass with
  | applyDefaults => exact hf.applyDefaults
  | resolve =>
    cases h : f.resolve.outcome with
    | ok f' =>
      have happly : Pass.apply f .resolve = f' := by simp [Pass.apply, h]
      rw [happly]
      exact hf.resolve h
    | error e =>
      have happly : Pass.apply f .resolve = f := by simp [Pass.apply, h]
      rw [happly]
      exact hf

/-- So does a run of passes. -/
theorem run (hf : f.HasText) (passes : List Pass) : (Pass.run passes f).HasText := by
  induction passes generalizing f with
  | nil => exact hf
  | cons pass passes ih => exact ih (hf.apply pass)

end HasText

/-! ## Compiling once more -/

theorem compile_render_of_compile (h : (Formation.compile source text).outcome = .ok f)
    (source' : String) : (Formation.compile source' f.render).outcome = .ok f := by
  obtain ⟨parsed, hparsed, hresolved, -⟩ := compile_eq_ok.1 h
  have hf := (hasText_of_parse hparsed).resolve hresolved
  rw [compile_render hf.representable hf.machines]
  exact resolve_resolve hresolved

end Formation

end Fleet

namespace Fleet.Command
open Formation

variable {f : Formation} {source text : String} {options : ParseTree}

namespace ParseTree

/-- The tree of a text that is not resolved. -/
theorem outcome_compile_unresolved (hu : options.unresolved = true)
    (hf : (Formation.parse source text).outcome = .ok f) :
    (options.compile text).outcome =
      .ok (if options.applyDefaults then f.applyDefaults else f) := by
  simp [compile, hu, parse_of_source hf, Except.bind]

/-- The tree of a text that is resolved and not merged is the formation that it compiles to. -/
theorem outcome_compile_resolved (hu : options.unresolved = false)
    (ha : options.applyDefaults = false) :
    (options.compile text).outcome = (Formation.compile options.source text).outcome := by
  simp only [compile, Formation.compile, hu, ha, Journaled.outcome_bind, Journaled.outcome_ofExcept,
    Journaled.outcome_note, Journaled.outcome_pure, Except.bind, Bool.false_eq_true, if_false]

/-- The tree of a text is that of its own canonical text, whatever this is called. Merging the
defaults of a tree that was resolved is left out: it may bring in includes again. -/
theorem compile_render (h : (options.compile text).outcome = .ok f)
    (ho : options.unresolved = true ∨ options.applyDefaults = false) (again : ParseTree)
    (hau : again.unresolved = options.unresolved)
    (haa : again.applyDefaults = options.applyDefaults) :
    (again.compile f.render).outcome = .ok f := by
  cases hu : options.unresolved with
  | true =>
    rw [hu] at hau
    cases hp : (Formation.parse options.source text).outcome with
    | error e => simp [compile, hp, Except.bind] at h
    | ok parsed =>
      rw [outcome_compile_unresolved hu hp] at h
      have hf := hasText_of_parse hp
      cases ha : options.applyDefaults with
      | false =>
        obtain rfl : parsed = f := by simpa [ha] using h
        rw [outcome_compile_unresolved hau (hf.parse_of_render ""), if_neg (by simp [haa, ha])]
      | true =>
        obtain rfl : parsed.applyDefaults = f := by simpa [ha] using h
        rw [outcome_compile_unresolved hau (hf.applyDefaults.parse_of_render ""),
          if_pos (haa.trans ha), applyDefaults_applyDefaults]
  | false =>
    have ha : options.applyDefaults = false := ho.resolve_left (by simp [hu])
    rw [outcome_compile_resolved hu ha] at h
    rw [outcome_compile_resolved (hau.trans hu) (haa.trans ha)]
    exact compile_render_of_compile h _

theorem execute_success_iff :
    (options.execute (.ok text)).status = .ok Finish.success ↔
      ∃ f, (options.compile text).outcome = .ok f := by
  cases h : (options.compile text).outcome with
  | ok f => simp [execute, h]
  | error e =>
    simp only [execute, h, reduceCtorEq, exists_false, iff_false]
    split <;> simp [Finish.invalidText, Finish.success]

theorem execute_of_compile (h : (options.compile text).outcome = .ok f) :
    (options.execute (.ok text)).status = .ok Finish.success ∧
      (options.execute (.ok text)).out = options.format.print f ∧
      (options.execute (.ok text)).err = "" := by
  simp [execute, h]

end ParseTree

/-- Text that was written out is read back. -/
theorem decode_toUTF8 (text : String) : decode text.toUTF8 = .ok text := by
  have h : String.fromUTF8? text.toUTF8 = some text := dif_pos text.isValidUTF8
  rw [decode, h]

end Fleet.Command

namespace Fleet
open Document Command

/-- After any run of passes over a formation that was parsed, its canonical text is parsed as the
formation again. The canonical text of one that was compiled compiles to it again. And what is
printed as canonical text is printed again when it is read by the same command, wherever from,
unless defaults are merged into a resolved tree. -/
theorem Formation.render_fixpoint (source text : String) :
    (∀ f : Formation, (Formation.parse source text).outcome = .ok f → ∀ passes source',
        (Formation.parse source' (Pass.run passes f).render).outcome = .ok (Pass.run passes f)) ∧
      (∀ f : Formation, (Formation.compile source text).outcome = .ok f → ∀ source',
        (Formation.compile source' f.render).outcome = .ok f) ∧
      ∀ options : ParseTree, options.format = .canonical →
        (options.unresolved = true ∨ options.applyDefaults = false) →
        (options.execute (.ok text)).status = .ok Finish.success → ∀ location,
          let out := (options.execute (.ok text)).out
          let again := ParseTree.execute { options with location } (decode out.toUTF8)
          again.status = .ok Finish.success ∧ again.out = out ∧ again.err = "" := by
  refine ⟨fun f hf passes source' => ((hasText_of_parse hf).run passes).parse_of_render source',
    fun f hf source' => compile_render_of_compile hf source', ?_⟩
  intro options hformat ho hstatus location
  obtain ⟨f, hf⟩ := ParseTree.execute_success_iff.1 hstatus
  obtain ⟨-, hout, -⟩ := ParseTree.execute_of_compile hf
  have hprint : options.format.print f = f.render := by rw [hformat]; rfl
  have hcompile := ParseTree.compile_render hf ho { options with location } rfl rfl
  obtain ⟨hagain, hout', herr⟩ := ParseTree.execute_of_compile hcompile
  dsimp only
  rw [hout, hprint, decode_toUTF8]
  exact ⟨hagain, hout'.trans hprint, herr⟩

/-- A box that includes a declared sequence, and a default for it. -/
theorem Formation.render_fixpoint_base :
    let options : ParseTree := ⟨none, none, .canonical, false, false⟩
    ∃ text f f', text = "defaults:\n" ++ "  region: 'eu'\n" ++ "\n" ++
        "bootstrap-sequence: 'base'\n" ++ "  git: 'repo'\n" ++ "\n" ++
        "box: 'web', 1 instance with 'debian'\n" ++ "  vm-flavor: 'small'\n" ++
        "  bootstrap-sequence:\n" ++ "    include: 'base'\n" ∧
      (Formation.parse "" text).outcome = .ok f ∧ (Formation.compile "" text).outcome = .ok f' ∧
      f ≠ f' ∧ (options.execute (.ok text)).status = .ok Command.Finish.success ∧
      (Formation.parse "" (Pass.run [.applyDefaults, .resolve] f).render).outcome =
        .ok (Pass.run [.applyDefaults, .resolve] f) ∧
      (Formation.compile "" f'.render).outcome = .ok f' ∧
      (options.execute (decode (options.execute (.ok text)).out.toUTF8)).out =
        (options.execute (.ok text)).out := by
  intro options
  let box (s : Sequence) : Formation :=
    ⟨[⟨"region", [.quoted "eu"]⟩], [⟨"base", [⟨"git", [.quoted "repo"]⟩]⟩], none, [],
      [⟨⟨"web", 1, "debian"⟩, "small", s⟩]⟩
  let f := box [⟨"include", [.quoted "base"]⟩]
  let f' := box [⟨"git", [.quoted "repo"]⟩]
  have hregion : IsKey "region" := .of_letters (by decide) rfl
  have hgit : IsKey "git" := .of_letters (by decide) rfl
  have hinclude : IsKey "include" := .of_letters (by decide) rfl
  have hf : f.HasText := by
    refine ⟨⟨?_, ?_, ?_, ?_, ?_, ?_⟩, .inr (by simp [f, box])⟩ <;>
      simp [f, box, Sequence.Writable, Pair.Representable, Value.Representable, IsQuotable,
        hregion, hgit, hinclude, Block.Representable, VmSpec.Representable,
        Sequence.Representable, Declaration.Representable]
  have hparse := hf.parse_of_render ""
  have hcompile : (Formation.compile "" f.render).outcome = .ok f' :=
    (compile_render hf.representable hf.machines "").trans (by cbv)
  have htree : (options.compile f.render).outcome = .ok f' :=
    (ParseTree.outcome_compile_resolved rfl rfl).trans hcompile
  have hstatus := ParseTree.execute_success_iff.2 ⟨f', htree⟩
  obtain ⟨hpasses, hagain, hprinted⟩ := Formation.render_fixpoint "" f.render
  refine ⟨f.render, f, f', by decide +kernel, hparse, hcompile, by decide, hstatus,
    hpasses f hparse _ "", hagain f' hcompile "", ?_⟩
  exact (hprinted options rfl (.inr rfl) hstatus none).2.1

end Fleet
