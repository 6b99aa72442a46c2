import Fleet.Proofs.Peg.Consumption
import Fleet.Proofs.Peg.Soundness
/-!
The matcher and the relation say the same (`eval_iff_reads`). The matcher comes to an answer just
where the relation has a result, in whatever state it is begun, and the one that answers an
expression before a text is the only one that the relation has for it.
-/

namespace Fleet.Peg
open Fleet.Text

variable {ι ν ε : Type} [BEq ι] {g : Grammar ι ν ε} {e : Expr ι} {k : Cursor} {s : State ν ε}

/-- A result that the relation has is what every answer says. -/
theorem Reads.agrees_of_eval {n : Nat} {a : Outcome ν × State ν ε} {r : Result ν}
    (h : Reads g e k.rest r) (ha : eval g n e k s = some a) :
    Agrees k s r a ∧ KeepsScope s a := by
  obtain ⟨r', hr', hagrees, hkeeps⟩ := reads_of_eval ha
  obtain rfl := h.unique hr'
  exact ⟨hagrees, hkeeps⟩

/-- What an answer says is a result that the relation has. -/
theorem Reads.of_agrees {n : Nat} {a : Outcome ν × State ν ε} {r : Result ν}
    (ha : eval g n e k s = some a) (h : Agrees k s r a) : Reads g e k.rest r := by
  obtain ⟨r', hr', hagrees, -⟩ := reads_of_eval ha
  obtain rfl := h.unique hagrees
  exact hr'

/-- There is an answer, for some number of steps, just where there is a result; and of an answer
the relation has the one result that it agrees with. Agreement says the kind of outcome, the text
left over, the items and the new bindings of the scope, and that the rules entered, the scopes
around and the depth of lookaheads are as before; without a match the scope is as before, too. -/
theorem eval_iff_reads (g : Grammar ι ν ε) (e : Expr ι) (k : Cursor) (s : State ν ε) :
    ((∃ n a, eval g n e k s = some a) ↔ ∃ r, Reads g e k.rest r) ∧
      ∀ n a, eval g n e k s = some a →
        ∀ r, Reads g e k.rest r ↔ Agrees k s r a ∧ KeepsScope s a := by
  refine ⟨⟨?_, ?_⟩, fun n a ha r => ⟨?_, ?_⟩⟩
  · intro hp
    obtain ⟨n, a, ha⟩ := hp
    obtain ⟨r, hr, -⟩ := reads_of_eval ha
    exact ⟨r, hr⟩
  · intro hp
    obtain ⟨r, hr⟩ := hp
    obtain ⟨n, a, ha, -⟩ := eval_of_reads hr s
    exact ⟨n, a, ha⟩
  · intro hr
    exact hr.agrees_of_eval ha
  · intro hp
    exact .of_agrees ha hp.1

end Fleet.Peg
