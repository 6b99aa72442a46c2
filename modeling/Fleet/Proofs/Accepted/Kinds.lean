import Fleet.Proofs.Accepted.Refusals
import Fleet.Proofs.Document.Answers
/-!
What kind of nodes each rule of a document yields (`yields_of_reads`), and so what a text can be
answered with, whatever rule it is matched against (`read_answers`): nodes of the rule's kind, a
report on its form, or a fault in what it says. No action comes upon a node of another kind than it
asks for.
-/

namespace Fleet.Document
open Fleet.Peg Fleet.Text Layout Language

variable {cs rest : List Char} {items : List (Item Node)} {bs : List (String × Item Node)}

/-- What kind of nodes a match of the rule yields. A rule without an action yields those of the
rules in it; with line ends and blanks these are none. -/
def Symbol.Yields (id : Symbol) (nodes : List Node) : Prop :=
  match id with
  | .newline | .endOfInput | .sectionBreak => nodes = []
  | .integer => ∃ n, nodes = [.integer n]
  | .integerList | .ports => ∃ ns, nodes = [.integers ns]
  | .key => ∃ text, nodes = [.key text]
  | .singleQuoted | .doubleQuoted | .quoted | .flavor => ∃ text, nodes = [.quoted text]
  | .value => ∃ v, nodes = [.ofValue v]
  | .valueList => ∃ vs, nodes = [.values vs]
  | .pair => ∃ p, nodes = [.pair p]
  | .pairList | .steps => ∃ s, nodes = [.pairs s]
  | .vmSpec => ∃ v, nodes = [.vmSpec v]
  | .declaration => ∃ d, nodes = [.declaration d]
  | .declarationList => ∃ ds, nodes = [.declarations ds]
  | .loadBalancer => ∃ b, nodes = [.loadBalancer b]
  | .service => ∃ s, nodes = [.service s]
  | .serviceList => ∃ ss, nodes = [.services ss]
  | .pool => ∃ p, nodes = [.pool p]
  | .poolList => ∃ ps, nodes = [.pools ps]
  | .box => ∃ b, nodes = [.box b]
  | .boxList => ∃ bs, nodes = [.boxes bs]
  | .defaults => ∃ s, nodes = [.defaults s]
  | .start => ∃ f, nodes = [.formation f]

theorem yields_of_reads {id : Symbol}
    (h : Reads grammar (.rule id) cs (.matched rest items bs)) :
    id.Yields (items.filterMap Item.node?) := by
  cases id with
  | newline =>
    obtain ⟨_, -, ⟨-, hn, -⟩, -⟩ := accepts_newline h
    exact hn
  | endOfInput =>
    obtain ⟨-, -, hn, -⟩ := endOfInput_inv h
    exact hn
  | sectionBreak =>
    obtain ⟨-, hn, -⟩ := sectionBreak_inv h
    exact hn
  | integer => exact accepts_integer.exists_node h
  | integerList => exact accepts_integers.exists_node h
  | key => exact accepts_key.exists_node h
  | singleQuoted => exact (accepts_quotedBy rfl rfl (.inl rfl)).exists_node h
  | doubleQuoted => exact (accepts_quotedBy rfl rfl (.inr rfl)).exists_node h
  | quoted => exact accepts_quoted.exists_node h
  | value => exact accepts_value.exists_node h
  | valueList => exact accepts_values.exists_node h
  | pair => exact accepts_pair.exists_node h
  | pairList => exact accepts_pairs.exists_node h
  | vmSpec => exact accepts_vmSpec.exists_node h
  | declaration => exact accepts_declaration.exists_node h
  | declarationList =>
    obtain ⟨-, _, -, a, -, -, hn, -⟩ := declarations_apart trivial h
    exact ⟨a, hn⟩
  | flavor => exact accepts_flavor.exists_node h
  | steps => exact accepts_steps.exists_node h
  | loadBalancer => exact accepts_loadBalancer.exists_node h
  | service => exact accepts_service.exists_node h
  | serviceList => exact accepts_services.exists_node h
  | ports => exact accepts_ports.exists_node h
  | pool => exact accepts_pool.exists_node h
  | poolList =>
    obtain ⟨-, _, -, a, -, -, hn, -⟩ := pools_apart trivial h
    exact ⟨a, hn⟩
  | box => exact accepts_box.exists_node h
  | boxList =>
    obtain ⟨-, _, -, a, -, -, hn, -⟩ := boxes_apart trivial h
    exact ⟨a, hn⟩
  | defaults => exact accepts_defaults.exists_node h
  | start =>
    obtain ⟨f, hn, -⟩ := start_inv h
    exact ⟨f, hn⟩

/-- What a text can be answered with that is matched against the rule. -/
inductive Symbol.Answers (id : Symbol) : Except Fault (List Node) → Prop where
  | nodes {nodes : List Node} (h : id.Yields nodes) : Answers id (.ok nodes)
  | malformed (report : Report) : Answers id (.error (.malformed report))
  | refused {e : Fault} (h : Refuses e) : Answers id (.error e)

theorem answers_read (id : Symbol) (source text : String) :
    id.Answers (grammar.read id source text).outcome := by
  rcases read_cases id source text with ⟨nodes, hok⟩ | ⟨report, hreport⟩ | ⟨e, he, haborts⟩
  · obtain ⟨items, bs, hr, hn⟩ := read_ok_iff.1 hok
    rw [hok]
    exact .nodes (hn ▸ yields_of_reads hr)
  · rw [hreport]
    exact .malformed report
  · rw [he]
    exact .refused (refuses_of_run ((run_rejected_iff grammar_notLeftRecursive).2 haborts))

/-- Every refusal on the way to an answer is of what the text says. -/
theorem refuses_of_mem_run {id : Symbol} {text : String} {r : Rejection Fault}
    (h : r ∈ (grammar.run id text).rejections) : Refuses r.error := by
  obtain ⟨id, action, _, _, _, bs, ha, hbody, he⟩ := rejects_of_mem_run h
  exact refuses_of_body ha hbody he

/-- The formation is there to be found whenever the start rule matches. -/
theorem parse_follows_read (source text : String) :
    (∃ f, (grammar.read .start source text).outcome = .ok [.formation f] ∧
        (Formation.parse source text).outcome = .ok f) ∨
      ∃ e, (grammar.read .start source text).outcome = .error e ∧
        (Formation.parse source text).outcome = .error e := by
  rw [Formation.outcome_parse]
  simp only [Grammar.read]
  cases hresult : (grammar.run .start text).result with
  | ok nodes =>
    obtain ⟨f, rfl, -⟩ := document_of_run hresult
    exact .inl ⟨f, rfl, rfl⟩
  | error refusal => exact .inr ⟨_, rfl, rfl⟩

/-- Whatever rule a text is matched against, it is answered with nodes of the kind of the rule, with
a report on its form, or with what there is to refuse in what it says, and no action on the way
refuses anything else. Where the start rule matches, parsing finds a formation. -/
theorem actions_find_their_kinds (id : Symbol) (source text : String) :
    id.Answers (grammar.read id source text).outcome ∧
      (∀ r ∈ (grammar.run id text).rejections, Refuses r.error) ∧
      ((∃ f, (grammar.read .start source text).outcome = .ok [.formation f] ∧
          (Formation.parse source text).outcome = .ok f) ∨
        ∃ e, (grammar.read .start source text).outcome = .error e ∧
          (Formation.parse source text).outcome = .error e) :=
  ⟨answers_read id source text, fun _ => refuses_of_mem_run, parse_follows_read source text⟩

theorem actions_find_their_kinds_pool :
    let text := "http-pool: 'api', 2 instances with 'debian'\n" ++ "  vm-flavor: 'small'\n" ++
      "  ports: 80\n" ++ "  bootstrap-sequence:\n" ++ "    git: 'repo'"
    let r : Rejection Fault := ⟨"pool_def_block", 1, .invalidValue (.wrongListeners .http "api")⟩
    r ∈ (grammar.run .pool text).rejections ∧ Refuses r.error := by
  intro text r
  have hr : r ∈ (grammar.run .pool text).rejections := by decide +kernel
  exact ⟨hr, (actions_find_their_kinds .pool "" text).2.1 r hr⟩

end Fleet.Document
