import Fleet.Formation.Include
/-!
What the form of a document cannot rule out: something to provision, names declared once, no empty
lists, and in a resolved formation no include left in a block.
-/

namespace Fleet

/-- A load balancer needs pools behind it; boxes need nothing. -/
def Formation.hasMachines (f : Formation) : Bool :=
  f.loadBalancer.isSome && !f.pools.isEmpty || !f.boxes.isEmpty

def Pool.checkListeners (p : Pool) : Except Fault Unit :=
  if p.listeners.isEmpty then
    .error (.invalidValue (.noListeners p.listeners.protocol p.spec.name))
  else .ok ()

def checkOwned (owner : Owner) (s : Sequence) : Except Fault Unit :=
  if s.isEmpty then .error (.invalidValue (.emptySequence owner))
  else match s.find? fun p => p.values.isEmpty with
    | some p => .error (.invalidValue (.noValues p.key owner))
    | none => if s.hasIncludes then .error (.unresolvedInclude owner) else .ok ()

/-- The first fault of a formation, in the order of this function's lines. -/
def Formation.check (f : Formation) : Except Fault Unit := do
  if !f.hasMachines then throw .emptyFormation
  checkDistinct f.declarations
  f.pools.forM Pool.checkListeners
  f.owned.forM fun (owner, s) => checkOwned owner s

end Fleet
