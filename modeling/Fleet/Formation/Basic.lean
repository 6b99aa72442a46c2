/-!
Formations: machines behind a load balancer, in pools, and boxes on their own, each block with the
sequence of steps that sets its machines up.
-/

namespace Fleet

inductive Value where
  | quoted (text : String)
  | integer (n : UInt64)
deriving DecidableEq, Repr

namespace Value

def quoted? : Value → Option String
  | quoted text => some text
  | integer _ => none

/-- What a value names when it stands in an include. -/
def name : Value → String
  | quoted text => text
  | integer n => toString n.toNat

end Value

structure Pair where
  key : String
  values : List Value
deriving DecidableEq, Repr

/-- The pair stands for the named sequences it lists. -/
def Pair.isInclude (p : Pair) : Bool := p.key == "include"

abbrev Sequence := List Pair

def Sequence.hasIncludes (s : Sequence) : Bool := s.any Pair.isInclude

/-- A sequence declared under a name, for others to include. -/
structure Declaration where
  name : String
  sequence : Sequence
deriving DecidableEq, Repr

/-- How many machines of which image, and what they are called. -/
structure VmSpec where
  name : String
  count : UInt64
  image : String
deriving DecidableEq, Repr

/-- A port that is served over HTTP and where its health is asked. -/
structure Service where
  port : UInt64
  endpoint : String
  healthPort : UInt64
deriving DecidableEq, Repr

/-- What load balancers, pools and boxes have in common. -/
structure Block where
  spec : VmSpec
  flavor : String
  sequence : Sequence
deriving DecidableEq, Repr

inductive Protocol where
  | http | tcp
deriving DecidableEq, Repr

def Protocol.tag : Protocol → String
  | http => "http"
  | tcp => "tcp"

/-- An HTTP pool listens through services and a TCP pool through bare ports. -/
inductive Listeners where
  | http (services : List Service)
  | tcp (ports : List UInt64)
deriving DecidableEq, Repr

namespace Listeners

def protocol : Listeners → Protocol
  | http _ => .http
  | tcp _ => .tcp

def isEmpty : Listeners → Bool
  | http services => services.isEmpty
  | tcp ports => ports.isEmpty

end Listeners

structure Pool extends Block where
  listeners : Listeners
deriving DecidableEq, Repr

structure Formation where
  defaults : Sequence
  declarations : List Declaration
  loadBalancer : Option Block
  pools : List Pool
  boxes : List Block
deriving DecidableEq, Repr

/-- Whose sequence it is, as a diagnostic says it. -/
inductive Owner where
  | loadBalancer (name : String)
  | pool (protocol : Protocol) (name : String)
  | box (name : String)
  | declaration (name : String)
deriving DecidableEq, Repr

def Owner.label : Owner → String
  | loadBalancer name => s!"load-balancer '{name}'"
  | pool protocol name => s!"{protocol.tag}-pool '{name}'"
  | box name => s!"box '{name}'"
  | declaration name => s!"bootstrap-sequence '{name}'"

def Block.withSequence (b : Block) (s : Sequence) : Block := { b with sequence := s }

def Pool.withSequence (p : Pool) (s : Sequence) : Pool := { p with sequence := s }

def Pool.owner (p : Pool) : Owner := .pool p.listeners.protocol p.spec.name

/-- Puts the members of one list into those of another, as far as both go. -/
def refill {α β : Type} (put : α → β → α) : List α → List β → List α
  | a :: as, b :: bs => put a b :: refill put as bs
  | as, _ => as

namespace Formation

/-- Every block's sequence with its owner, in the order of the document. -/
def owned (f : Formation) : List (Owner × Sequence) :=
  (f.loadBalancer.toList.map fun b => (Owner.loadBalancer b.spec.name, b.sequence)) ++
    (f.pools.map fun p => (p.owner, p.sequence)) ++
    f.boxes.map fun b => (Owner.box b.spec.name, b.sequence)

def owners (f : Formation) : List Owner := f.owned.map (·.1)

def sequences (f : Formation) : List Sequence := f.owned.map (·.2)

/-- Gives the blocks the sequences of a list, in the order of `owned`. A block that the list does
not reach keeps its own. -/
def withSequences (f : Formation) (new : List Sequence) : Formation :=
  let before := f.loadBalancer.toList.length
  { f with
    loadBalancer := (refill Block.withSequence f.loadBalancer.toList new).head?
    pools := refill Pool.withSequence f.pools (new.drop before)
    boxes := refill Block.withSequence f.boxes (new.drop (before + f.pools.length)) }

def isResolved (f : Formation) : Bool := f.owned.all fun (_, s) => !s.hasIncludes

/-- Applies one function to every block's sequence. -/
def mapSequences (g : Sequence → Sequence) (f : Formation) : Formation :=
  { f with
    loadBalancer := f.loadBalancer.map fun b => b.withSequence (g b.sequence)
    pools := f.pools.map fun p => p.withSequence (g p.sequence)
    boxes := f.boxes.map fun b => b.withSequence (g b.sequence) }

end Formation

end Fleet
