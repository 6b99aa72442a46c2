import Fleet.Proofs.Document.Ranks
import Fleet.Proofs.Formation.Faults
import Fleet.Proofs.Peg.Repetition
import Fleet.Proofs.Peg.Verdict
/-!
Matching always comes to an answer: in every rule table without left recursion, and so in that of
documents (`matching_terminates`).
-/

namespace Fleet.Document
open Fleet.Peg

/-- Each rule of documents is matched or refused. -/
theorem read_ne_unfinished (symbol : Symbol) (source text : String) :
    (grammar.read symbol source text).outcome ≠ .error .unfinished := by
  intro h
  have hrun := run_ne_unfinished grammar_notLeftRecursive symbol text
  cases hresult : (grammar.run symbol text).result with
  | ok nodes => simp [Grammar.read, hresult, Except.mapError] at h
  | error refusal =>
    cases refusal with
    | malformed e => simp [Grammar.read, hresult, Except.mapError, Refusal.fault] at h
    | unfinished => exact hrun hresult
    | rejected fault =>
      obtain ⟨id, action, _, _, _, bs, ha, -, he⟩ := rejected_of_run hresult
      obtain rfl : fault = .unfinished := by
        simpa [Grammar.read, hresult, Except.mapError, Refusal.fault] using h
      cases faultsIn_action ha ⟨bs⟩ _ he

theorem parse_ne_unfinished (source text : String) :
    (Formation.parse source text).outcome ≠ .error .unfinished := by
  intro h
  have hread := read_ne_unfinished .start source text
  simp only [Formation.parse, Journaled.outcome_bind, Journaled.outcome_note, Except.bind] at h
  cases hr : (grammar.read .start source text).outcome with
  | error e =>
    rw [hr] at h
    obtain rfl : e = .unfinished := Except.error.inj h
    exact hread hr
  | ok nodes =>
    rw [hr] at h
    dsimp only at h
    split at h <;> cases h

end Fleet.Document

namespace Fleet.Peg
open Fleet.Text Document

/-- Without left recursion every evaluation comes to an answer, and a whole text to one within the
budget; in any table a repetition makes at most one match more than there are characters left. The
rules of documents are not left-recursive, so each of them, by its name too, and all of parsing
come to an answer for every text. -/
theorem matching_terminates :
    (∀ {ι ν ε : Type} [BEq ι] (g : Grammar ι ν ε), g.NotLeftRecursive →
      (∀ e k s, ∃ n a, eval g n e k s = some a) ∧
        ∀ id text, (g.run id text).result ≠ .error .unfinished) ∧
      (∀ {ι ν ε : Type} [BEq ι] (g : Grammar ι ν ε) n e required (k : Cursor) s a,
        evalMany g n e required k s = some a →
          ∃ m, rounds g n e k s = some m ∧ m ≤ k.rest.length + 1) ∧
      grammar.NotLeftRecursive ∧
      (∀ name source text, (parseRuleNamed name source text).outcome ≠ .error .unfinished) ∧
      ∀ source text, (Formation.parse source text).outcome ≠ .error .unfinished := by
  refine ⟨fun g hg => ⟨exists_eval hg, run_ne_unfinished hg⟩,
    fun g n e required k s a h => rounds_of_evalMany h, grammar_notLeftRecursive, ?_,
    parse_ne_unfinished⟩
  intro name source text
  unfold parseRuleNamed
  split
  · exact read_ne_unfinished _ source text
  · nofun

/-- Letters in nested brackets: the one rule refers to itself inside a repetition, and what it
repeats may be empty. -/
theorem matching_terminates_brackets :
    let g : Grammar Unit Unit Unit :=
      ⟨[()], fun _ => .transparent "brackets" (.zeroOrMore (.choice
        [.seq [.literal "(", .rule (), .literal ")"], .oneOrMore (.optional (.literal "a"))])),
        by simp⟩
    g.NotLeftRecursive ∧ (∃ n a, eval g n (.rule ()) (.ofText "((a)") .start = some a) ∧
      (g.run () "((a)").result ≠ .error .unfinished ∧
      ∃ m, rounds g 9 (.optional (.literal "a")) (.ofText "aa") .start = some m ∧ m ≤ 3 := by
  intro g
  have hg : g.NotLeftRecursive := by
    refine ⟨fun _ => 0, Grammar.rankedBy_of_leads fun i => ?_⟩
    cases i
    decide
  obtain ⟨a, ha⟩ : ∃ a, evalMany g 9 (.optional (.literal "a")) false (.ofText "aa") .start =
      some a := Option.isSome_iff_exists.1 (by decide +kernel)
  obtain ⟨hall, hrounds, -⟩ := matching_terminates
  obtain ⟨heval, hrun⟩ := hall g hg
  exact ⟨hg, heval _ _ _, hrun _ _, hrounds g 9 _ _ _ _ a ha⟩

end Fleet.Peg
