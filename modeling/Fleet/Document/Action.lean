import Fleet.Document.Debug
import Fleet.Fault
import Fleet.Peg.Captures
import Fleet.Text.Decimal
/-!
The actions of a document's rules: each finds its parts by the name of a capture and puts them
together. A capture of the wrong kind is a fault of the rule table, which no document brings
about.
-/

namespace Fleet.Document
open Fleet.Peg

/-- What an action makes of the captures of its rule. -/
abbrev Action := Captures Node → Except Fault (List Node)

/-- There is a node of another kind than the wanted one, or none. -/
def mismatch (wanted : String) (found : Option Node) : Fault :=
  .incompatible s!"expected {wanted}, found {debugOption Node.debug found}"

/-- The first node captured under a name, which has to be of one kind. -/
def required {α : Type} (c : Captures Node) (name : String) (pick : Node → Option α)
    (wanted : String := name) : Except Fault α :=
  match (c.node? name).bind pick with
  | some a => .ok a
  | none => .error (mismatch wanted (c.node? name))

/-- Like `required`, with an answer for when nothing was captured. -/
def orElse {α : Type} (c : Captures Node) (name : String) (pick : Node → Option α) (absent : α)
    (wanted : String := name) : Except Fault α :=
  match c.node? name with
  | none => .ok absent
  | some _ => required c name pick wanted

theorem required_eq {α : Type} {c : Captures Node} {name wanted : String} {n : Node} {a : α}
    (pick : Node → Option α) (h : c.nodes name = [n]) (hp : pick n = some a) :
    required c name pick wanted = .ok a := by
  simp [required, Captures.node?, h, hp]

/-- What is captured unless it is the answer for nothing comes back in either case. -/
theorem orElse_eq {α : Type} [DecidableEq α] {c : Captures Node} {name wanted : String} {n : Node}
    {a absent : α} {pick : Node → Option α} (h : c.nodes name = if a = absent then [] else [n])
    (hp : a ≠ absent → pick n = some a) : orElse c name pick absent wanted = .ok a := by
  split at h
  · next he => simp [orElse, Captures.node?, h, he]
  · next hne => simp [orElse, required, Captures.node?, h, hp hne]

/-- Every node of a list, which all have to be of one kind. -/
def gather {α : Type} (wanted : String) (pick : Node → Option α) :
    List Node → Except Fault (List α)
  | [] => .ok []
  | n :: ns =>
    match pick n with
    | some a => (gather wanted pick ns).map (a :: ·)
    | none => .error (mismatch wanted (some n))

/-- The node for a list of nodes of one kind. -/
def listNode {α : Type} (wanted : String) (pick : Node → Option α) (make : List α → Node)
    (nodes : List Node) : Except Fault Node := (gather wanted pick nodes).map make

theorem gather_map {α : Type} {pick : Node → Option α} {f : α → Node}
    (h : ∀ a, pick (f a) = some a) (wanted : String) (as : List α) :
    gather wanted pick (as.map f) = .ok as := by
  induction as with
  | nil => rfl
  | cons a as ih => simp [gather, h, ih, Except.map]

theorem listNode_map {α : Type} {pick : Node → Option α} {f : α → Node}
    (h : ∀ a, pick (f a) = some a) (wanted : String) (make : List α → Node) (as : List α) :
    listNode wanted pick make (as.map f) = .ok (make as) := by
  rw [listNode, gather_map h]
  rfl

namespace Action

def integer : Action := fun c =>
  let digits := c.text "digits"
  match Text.readUInt64? digits with
  | some n => .ok [.integer n]
  | none => .error (.invalidValue (.tooLarge digits))

def key : Action := fun c => .ok [.key (c.text "key")]

def quoted : Action := fun c => .ok [.quoted (c.text "text")]

def pair : Action := fun c => do
  let key ← required c "key" Node.key?
  let values ← required c "value" Node.values? "value list"
  pure [.pair ⟨key, values⟩]

def vmSpec : Action := fun c => do
  let name ← required c "name" Node.quoted?
  let count ← required c "count" Node.integer?
  let image ← required c "image_name" Node.quoted?
  pure [.vmSpec ⟨name, count, image⟩]

def declaration : Action := fun c => do
  let name ← required c "name" Node.quoted?
  let sequence ← required c "sequence" Node.pairs?
  pure [.declaration ⟨name, sequence⟩]

/-- The part of every block that does not depend on its kind. -/
def block (c : Captures Node) : Except Fault Block := do
  let spec ← required c "vm_spec" Node.vmSpec?
  let flavor ← required c "flavor" Node.quoted?
  let sequence ← required c "bootstrap_sequence" Node.pairs?
  pure ⟨spec, flavor, sequence⟩

def loadBalancer : Action := fun c => do return [.loadBalancer (← block c)]

def box : Action := fun c => do return [.box (← block c)]

def service : Action := fun c => do
  let port ← required c "port" Node.integer?
  let endpoint ← required c "endpoint" Node.quoted?
  let healthPort ← required c "healthcheck_port" Node.integer?
  pure [.service ⟨port, endpoint, healthPort⟩]

/-- The word before `-pool` says which listeners the pool has to have. -/
def pool : Action := fun c => do
  let b ← block c
  match c.text "pool_type", c.node? "listeners" with
  | "http", some (.services services) => pure [.pool ⟨b, .http services⟩]
  | "tcp", some (.integers ports) => pure [.pool ⟨b, .tcp ports⟩]
  | "http", _ => throw (.invalidValue (.wrongListeners .http b.spec.name))
  | "tcp", _ => throw (.invalidValue (.wrongListeners .tcp b.spec.name))
  | other, _ => throw (.invalidValue (.stated s!"{other}-pool is not a known pool type"))

def defaults : Action := fun c => do return [.defaults (← required c "defaults" Node.pairs?)]

/-- A document says at least what its load balancer is or what its boxes are. -/
def formation : Action := fun c => do
  let defaults ← orElse c "defaults" Node.defaults? []
  let declarations ← orElse c "named" Node.declarations? [] "named bootstrap sequences"
  let loadBalancer ←
    orElse c "load_balancer" (fun n => n.loadBalancer?.map some) none "load balancer"
  let pools ← orElse c "pools" Node.pools? [] "pool definitions"
  let boxes ← orElse c "boxes" Node.boxes? [] "box definitions"
  if loadBalancer.isNone && boxes.isEmpty then throw .emptyFormation
  pure [.formation ⟨defaults, declarations, loadBalancer, pools, boxes⟩]

section Captured

/-! Each action of a block's rule puts together what was captured for it. -/

variable {c : Captures Node}

theorem pair_eq {p : Pair} (hk : c.nodes "key" = [.key p.key])
    (hv : c.nodes "value" = [.values p.values]) : pair c = .ok [.pair p] := by
  simp only [pair, required_eq Node.key? hk rfl, required_eq Node.values? hv rfl]
  rfl

theorem vmSpec_eq {v : VmSpec} (hn : c.nodes "name" = [.quoted v.name])
    (hc : c.nodes "count" = [.integer v.count])
    (hi : c.nodes "image_name" = [.quoted v.image]) : vmSpec c = .ok [.vmSpec v] := by
  simp only [vmSpec, required_eq Node.quoted? hn rfl, required_eq Node.integer? hc rfl,
    required_eq Node.quoted? hi rfl]
  rfl

theorem declaration_eq {d : Declaration} (hn : c.nodes "name" = [.quoted d.name])
    (hs : c.nodes "sequence" = [.pairs d.sequence]) :
    declaration c = .ok [.declaration d] := by
  simp only [declaration, required_eq Node.quoted? hn rfl, required_eq Node.pairs? hs rfl]
  rfl

theorem block_eq {b : Block} (hv : c.nodes "vm_spec" = [.vmSpec b.spec])
    (hf : c.nodes "flavor" = [.quoted b.flavor])
    (hs : c.nodes "bootstrap_sequence" = [.pairs b.sequence]) : block c = .ok b := by
  simp only [block, required_eq Node.vmSpec? hv rfl, required_eq Node.quoted? hf rfl,
    required_eq Node.pairs? hs rfl]
  rfl

theorem loadBalancer_eq {b : Block} (hb : block c = .ok b) :
    loadBalancer c = .ok [.loadBalancer b] := by
  simp only [loadBalancer, hb]
  rfl

theorem box_eq {b : Block} (hb : block c = .ok b) : box c = .ok [.box b] := by
  simp only [box, hb]
  rfl

theorem service_eq {s : Service} (hp : c.nodes "port" = [.integer s.port])
    (he : c.nodes "endpoint" = [.quoted s.endpoint])
    (hh : c.nodes "healthcheck_port" = [.integer s.healthPort]) :
    service c = .ok [.service s] := by
  simp only [service, required_eq Node.integer? hp rfl, required_eq Node.quoted? he rfl,
    required_eq Node.integer? hh rfl]
  rfl

/-- The listeners of a pool have to be those that its first word says. -/
theorem pool_eq {b : Block} {l : Listeners} {protocol : Protocol} (hb : block c = .ok b)
    (ht : c.text "pool_type" = protocol.tag) (hl : c.nodes "listeners" = [.ofListeners l]) :
    pool c = if l.protocol = protocol then .ok [.pool ⟨b, l⟩]
      else .error (.invalidValue (.wrongListeners protocol b.spec.name)) := by
  have hnode : c.node? "listeners" = some (.ofListeners l) := by simp [Captures.node?, hl]
  simp only [pool, hb, ht, hnode]
  cases protocol <;> cases l <;> rfl

theorem defaults_eq {s : Sequence} (hs : c.nodes "defaults" = [.pairs s]) :
    defaults c = .ok [.defaults s] := by
  simp only [defaults, required_eq Node.pairs? hs rfl]
  rfl

end Captured

end Action

end Fleet.Document
