import Fleet.Formation.Defaults
import Fleet.Formation.Include
/-!
Formations that are rewritten where they stand. Each block has a place through which its sequence
is written, and a pass over a formation goes from place to place. A pass that ends with a fault
leaves what it has written until then.
-/

namespace Fleet

/-- Where a block stands in a formation. -/
inductive Place where
  | loadBalancer
  | pool (i : Nat)
  | box (i : Nat)
deriving DecidableEq, Repr

namespace Formation

/-- The places of the blocks, in the order in which they are written. -/
def places (f : Formation) : List Place :=
  (f.loadBalancer.toList.map fun _ => Place.loadBalancer) ++
    (List.range f.pools.length).map Place.pool ++ (List.range f.boxes.length).map Place.box

/-- The sequence of the block at a place, and its owner. -/
def ownedAt? (f : Formation) : Place → Option (Owner × Sequence)
  | .loadBalancer => f.loadBalancer.map fun b => (.loadBalancer b.spec.name, b.sequence)
  | .pool i => f.pools[i]?.map fun p => (p.owner, p.sequence)
  | .box i => f.boxes[i]?.map fun b => (.box b.spec.name, b.sequence)

/-- Rewrites the sequence of the block at a place. -/
def alter (f : Formation) (g : Sequence → Sequence) : Place → Formation
  | .loadBalancer =>
    { f with loadBalancer := f.loadBalancer.map fun b => b.withSequence (g b.sequence) }
  | .pool i => { f with pools := f.pools.modify i fun p => p.withSequence (g p.sequence) }
  | .box i => { f with boxes := f.boxes.modify i fun b => b.withSequence (g b.sequence) }

end Formation

/-- Work on a formation that stays where it is, whether the work succeeds or not. -/
abbrev Rewrite (α : Type) := ExceptT Fault (StateM Formation) α

namespace Rewrite

def perform {α : Type} (x : Rewrite α) (f : Formation) : Except Fault α × Formation :=
  Id.run (x.run.run f)

/-- Expands the sequences of all blocks, and only then puts them in their places. -/
def resolve : Rewrite Unit := do
  let f ← get
  let table ← liftExcept (expansions f.declarations).outcome
  let new ← liftExcept (expandOwned table f.owned).outcome
  (f.places.zip new).forM fun (place, s) => modify fun f => f.alter (fun _ => s) place

/-- Merges the defaults into one block after the other. -/
def applyDefaults : Rewrite Unit := do
  let defaults := (← get).defaults
  (← get).places.forM fun place => modify fun f => f.alter (·.withDefaults defaults) place

end Rewrite

end Fleet
