import Fleet.Document.Grammar
import Fleet.Journal
import Fleet.Peg.Matcher
/-!
From text to formation.
-/

namespace Fleet.Peg

/-- The fault that a refusal is to the author of the text called `source`. -/
def Refusal.fault (source : String) : Refusal Fault → Fault
  | .malformed e => .malformed (e.report source)
  | .rejected fault => fault
  | .unfinished => .unfinished

variable {ι ν : Type} [BEq ι]

/-- Matches one rule against the whole of a text called `source`. -/
def Grammar.read (g : Grammar ι ν Fault) (id : ι) (source text : String) : Journaled (List ν) :=
  let verdict := g.run id text
  let rejections := verdict.rejections.map fun r => .rejected r.rule r.line r.error.message
  ⟨.matching (g.rule id).name text.utf8ByteSize source :: rejections,
    verdict.result.mapError (Refusal.fault source)⟩

end Fleet.Peg

namespace Fleet.Document

/-- Matches the rule of a name, if there is one. -/
def parseRuleNamed (name source text : String) : Journaled (List Node) :=
  match Symbol.ofName? name with
  | some symbol => grammar.read symbol source text
  | none => throw (.unknownRule name)

end Fleet.Document

namespace Fleet
open Document

/-- The formation that a document describes, its includes not yet resolved. -/
def Formation.parse (source text : String) : Journaled Formation := do
  Journaled.note (.parsing source)
  let nodes ← grammar.read .start source text
  match nodes.head?.bind Node.formation? with
  | some f =>
    Journaled.note (.parsed f.declarations.length f.pools.length f.boxes.length source)
    pure f
  | none => throw (mismatch "cloud formation" nodes.head?)

theorem Formation.outcome_parse (source text : String) :
    (Formation.parse source text).outcome =
      ((grammar.run .start text).result.mapError (Peg.Refusal.fault source)).bind fun nodes =>
        match nodes.head?.bind Node.formation? with
        | some f => .ok f
        | none => .error (mismatch "cloud formation" nodes.head?) := by
  simp only [Formation.parse, Journaled.outcome_bind, Journaled.outcome_note, Except.bind,
    Peg.Grammar.read]
  cases (grammar.run .start text).result with
  | error e => rfl
  | ok nodes =>
    have hok : Except.mapError (Peg.Refusal.fault source) (.ok nodes) = .ok nodes := rfl
    simp only [hok]
    cases nodes.head?.bind Node.formation? <;> rfl

end Fleet
