import Fleet.Document.Parse
import Fleet.Proofs.Document.Ranks
import Fleet.Proofs.Peg.Aborts
import Fleet.Proofs.Peg.Acceptance
/-!
What a text is answered with that is matched against a rule, by how its characters are read: nodes
for a match of all of it, a report on its form, or what an action refuses (`read_cases`).
-/

namespace Fleet.Document
open Fleet.Peg

variable {id : Symbol} {source text : String} {nodes : List Node} {e : Fault}

theorem read_ok_iff :
    (grammar.read id source text).outcome = .ok nodes ↔
      ∃ items bs, Reads grammar (.rule id) text.toList (.matched [] items bs) ∧
        nodes = items.filterMap Item.node? := by
  rw [← run_ok_iff grammar_notLeftRecursive]
  simp only [Grammar.read]
  cases (grammar.run id text).result <;> simp [Except.mapError]

/-- A rule for texts of which one node is made, and whose texts it takes to the end. -/
theorem read_made_iff {α : Type} {good : α → Prop} {node : α → Node} {lang : α → Text.Language}
    {a : α} (hnode : ∀ a b, node a = node b → a = b)
    (haccepts : Accepts grammar (.rule id) (Made good node lang))
    (hreads : ∀ a t, good a → lang a t →
      Reads grammar (.rule id) t (.matched [] [.node (node a)] [])) :
    (grammar.read id source text).outcome = .ok [node a] ↔ good a ∧ lang a text.toList := by
  rw [read_ok_iff]
  refine ⟨fun h => ?_, fun h => ⟨_, _, hreads a _ h.1 h.2, rfl⟩⟩
  obtain ⟨items, bs, hr, hn⟩ := h
  obtain ⟨t, ht, b, hgood, hlang, hitems, -⟩ := haccepts hr
  obtain rfl : a = b := hnode a b (by simpa [hitems] using hn)
  rw [List.append_nil] at ht
  exact ⟨hgood, ht ▸ hlang⟩

/-- A match that leaves some of the text is reported. -/
theorem read_leftOver {c : Char} {rest : List Char} {items : List (Item Node)}
    {bs : List (String × Item Node)}
    (h : Reads grammar (.rule id) text.toList (.matched (c :: rest) items bs)) :
    ∃ report, (grammar.read id source text).outcome = .error (.malformed report) := by
  obtain ⟨f, hrun⟩ := run_malformed_of_reads grammar_notLeftRecursive h
  exact ⟨f.report source, by simp only [Grammar.read, hrun]; rfl⟩

theorem read_refused (h : Aborts grammar (.rule id) text.toList (some e)) :
    (grammar.read id source text).outcome = .error e := by
  simp only [Grammar.read, (run_rejected_iff grammar_notLeftRecursive).2 h]
  rfl

theorem read_cases (id : Symbol) (source text : String) :
    (∃ nodes, (grammar.read id source text).outcome = .ok nodes) ∨
      (∃ report, (grammar.read id source text).outcome = .error (.malformed report)) ∨
      ∃ e, (grammar.read id source text).outcome = .error e ∧
        Aborts grammar (.rule id) text.toList (some e) := by
  simp only [Grammar.read]
  cases hresult : (grammar.run id text).result with
  | ok nodes => exact .inl ⟨nodes, rfl⟩
  | error refusal =>
    cases refusal with
    | malformed f => exact .inr (.inl ⟨_, rfl⟩)
    | rejected e => exact .inr (.inr ⟨e, rfl, (run_rejected_iff grammar_notLeftRecursive).1 hresult⟩)
    | unfinished => exact absurd hresult (run_ne_unfinished grammar_notLeftRecursive id text)

end Fleet.Document
