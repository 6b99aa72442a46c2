import Fleet.Document.Grammar
import Fleet.Peg.LeftRecursion
/-!
The rules of a document are ranked as they are listed: a rule tries only earlier ones before it has
consumed a character.
-/

namespace Fleet.Document
open Fleet.Peg

def Symbol.rank (s : Symbol) : Nat := Symbol.all.idxOf s

theorem grammar_rankedBy_rank : grammar.RankedBy Symbol.rank := by
  refine Grammar.rankedBy_of_leads fun s => ?_
  cases s <;> decide

theorem grammar_notLeftRecursive : grammar.NotLeftRecursive := ⟨_, grammar_rankedBy_rank⟩

end Fleet.Document
