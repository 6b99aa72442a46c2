import Mathlib.Data.List.Chain
import Fleet.Formation.Include
/-!
Declared sequences as a graph: which include which, what a request has to be like to be granted,
and what including means, said without a table or an order of visits.
-/

namespace Fleet

/-- Some declaration has the name. -/
def Declares (declared : List Declaration) (name : String) : Prop :=
  ∃ d ∈ declared, d.name = name

/-- An include of the sequence asks for the name. -/
def Sequence.Includes (s : Sequence) (name : String) : Prop :=
  ∃ p ∈ s, p.isInclude = true ∧ .quoted name ∈ p.values

/-- The declared sequence `a` has an include that lists `b`. -/
def Lists (declared : List Declaration) (a b : String) : Prop :=
  ∃ d ∈ declared, d.name = a ∧ d.sequence.Includes b

/-- Both are declared names, and `a` lists `b`. -/
def Edge (declared : List Declaration) (a b : String) : Prop :=
  Lists declared a b ∧ Declares declared b

/-- No declared name leads along includes of declared names back to itself. -/
def Acyclic (declared : List Declaration) : Prop :=
  ∀ a, ¬ Relation.TransGen (Edge declared) a a

/-- An include that lists names of declarations, each of them once. -/
def Pair.Granted (declared : List Declaration) (p : Pair) : Prop :=
  (∀ v ∈ p.values, ∃ name, v = .quoted name ∧ Declares declared name) ∧ p.values.Nodup

/-- Every include of the sequence can be granted. -/
def Sequence.Granted (declared : List Declaration) (s : Sequence) : Prop :=
  ∀ p ∈ s, p.isInclude = true → p.Granted declared

instance (declared : List Declaration) (name : String) : Decidable (Declares declared name) :=
  inferInstanceAs (Decidable (∃ d ∈ declared, d.name = name))

/-- The value names a declaration. -/
def Value.Known (declared : List Declaration) : Value → Prop
  | .quoted name => Declares declared name
  | .integer _ => False

instance (declared : List Declaration) : DecidablePred (Value.Known declared)
  | .quoted name => inferInstanceAs (Decidable (Declares declared name))
  | .integer _ => inferInstanceAs (Decidable False)

/-- The values that an include cannot be granted, in order, where it has the values `before` in
front of them: those that name no declaration and those that it has had before. -/
def refusedAfter (declared : List Declaration) (before : List Value) : List Value → List Value
  | [] => []
  | v :: values =>
    let others := refusedAfter declared (before ++ [v]) values
    if v.Known declared ∧ v ∉ before then others else v :: others

def Pair.refused (declared : List Declaration) (p : Pair) : List Value :=
  refusedAfter declared [] p.values

/-- The first include of the sequence that cannot be granted has the values `names`, and it is for
`missing` that it cannot. -/
def Sequence.Misses (declared : List Declaration) (s : Sequence) (names missing : List String) :
    Prop :=
  ∃ (before : Sequence) (p : Pair) (after : Sequence), s = before ++ p :: after ∧
    before.Granted declared ∧ p.isInclude = true ∧ names = p.values.map Value.name ∧
    missing = (p.refused declared).map Value.name ∧ missing ≠ []

/-- The names of a circle of includes, from one of them back to it. -/
structure IsCircle (declared : List Declaration) (chain : List String) : Prop where
  two : 2 ≤ chain.length
  closes : chain.head? = chain.getLast?
  distinct : chain.dropLast.Nodup
  declares : ∀ name ∈ chain, Declares declared name
  lists : chain.IsChain (Lists declared)

mutual

/-- The sequence with each include replaced, in place, by the full expansions of the sequences it
names, in the order of the request, and every other pair kept. -/
inductive Expands (declared : List Declaration) : Sequence → Sequence → Prop where
  | nil : Expands declared [] []
  | keep {p : Pair} {s t : Sequence} (hp : p.isInclude = false) (h : Expands declared s t) :
      Expands declared (p :: s) (p :: t)
  | replace {p : Pair} {s included t : Sequence} (hp : p.isInclude = true)
      (hi : ExpandsRequest declared p.values included) (h : Expands declared s t) :
      Expands declared (p :: s) (included ++ t)

/-- The full expansions of the sequences that values name, joined. -/
inductive ExpandsRequest (declared : List Declaration) : List Value → Sequence → Prop where
  | nil : ExpandsRequest declared [] []
  | cons {d : Declaration} {values : List Value} {s t : Sequence} (hd : d ∈ declared)
      (hs : Expands declared d.sequence s) (ht : ExpandsRequest declared values t) :
      ExpandsRequest declared (.quoted d.name :: values) (s ++ t)

end

/-- The sequence has this expansion and no other. -/
def IsExpansion (declared : List Declaration) (s t : Sequence) : Prop :=
  ∀ u, Expands declared s u ↔ u = t

/-- The same block, its sequence replaced by its expansion. -/
def Block.Substituted (declared : List Declaration) (b b' : Block) : Prop :=
  ∃ t, b' = b.withSequence t ∧ IsExpansion declared b.sequence t

/-- The same pool, its sequence replaced by its expansion. -/
def Pool.Substituted (declared : List Declaration) (p p' : Pool) : Prop :=
  ∃ t, p' = p.withSequence t ∧ IsExpansion declared p.sequence t

end Fleet
