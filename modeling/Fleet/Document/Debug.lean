import Fleet.Document.Node
import Fleet.Text.Escaped
/-!
Nodes with all their parts spelled out, as a fault of the rule table tells of the node that it met.
-/

namespace Fleet.Document
open Text

/-- A variant or a record without names, around what is in it. -/
def wrapped (name inside : String) : String := s!"{name}({inside})"

def listed (items : List String) : String := "[" ++ ", ".intercalate items ++ "]"

/-- A record with its fields by name. -/
def record (name : String) (fields : List (String × String)) : String :=
  let inside := ", ".intercalate (fields.map fun f => f.1 ++ ": " ++ f.2)
  name ++ " \x7b " ++ inside ++ " \x7d"

def debugOption {α : Type} (debug : α → String) : Option α → String
  | none => "None"
  | some a => wrapped "Some" (debug a)

def debugValue : Value → String
  | .quoted text => wrapped "Quoted" (quote text)
  | .integer n => wrapped "Integer" (toString n)

def debugValues (vs : List Value) : String := wrapped "ValueList" (listed (vs.map debugValue))

def debugPair (p : Pair) : String :=
  record "PairNode" [("key", quote p.key), ("value", debugValues p.values)]

def debugPairs (s : Sequence) : String := wrapped "PairList" (listed (s.map debugPair))

def debugVmSpec (v : VmSpec) : String :=
  record "VmSpec"
    [("name", quote v.name), ("count", toString v.count), ("image_name", quote v.image)]

def debugDeclaration (d : Declaration) : String :=
  record "NamedBootstrapSequence" [("name", quote d.name), ("sequence", debugPairs d.sequence)]

def debugService (s : Service) : String :=
  record "ServicePortDefinition"
    [("port", toString s.port), ("healthcheck_endpoint", quote s.endpoint),
      ("healthcheck_port", toString s.healthPort)]

/-- A block by the name of its kind, with the fields that only this kind has. -/
def debugBlock (name : String) (b : Block) (others : List (String × String)) : String :=
  record name ([("vm_spec", debugVmSpec b.spec), ("flavor", quote b.flavor)] ++ others ++
    [("bootstrap_sequence", debugPairs b.sequence)])

def debugLoadBalancer (b : Block) : String := debugBlock "LoadBalancerDefinitionBlock" b []

def debugBox (b : Block) : String := debugBlock "BoxDefinition" b []

def debugPool (p : Pool) : String :=
  match p.listeners with
  | .http services =>
    let fields := [("services", listed (services.map debugService))]
    wrapped "Http" (debugBlock "HttpPoolDefinition" p.toBlock fields)
  | .tcp ports =>
    let fields := [("ports", listed (ports.map toString))]
    wrapped "Tcp" (debugBlock "TcpPoolDefinition" p.toBlock fields)

def debugFormation (f : Formation) : String :=
  record "RawCloudFormation"
    [("defaults", debugPairs f.defaults),
      ("bootstrap_sequences", listed (f.declarations.map debugDeclaration)),
      ("load_balancer", debugOption debugLoadBalancer f.loadBalancer),
      ("pools", listed (f.pools.map debugPool)), ("boxes", listed (f.boxes.map debugBox))]

def Node.debug : Node → String
  | .integer n => wrapped "Integer" (toString n)
  | .integers ns => wrapped "Integers" (listed (ns.map toString))
  | .quoted text => wrapped "Quoted" (quote text)
  | .key text => wrapped "Key" (quote text)
  | .values vs => wrapped "Values" (debugValues vs)
  | .pair p => wrapped "Pair" (debugPair p)
  | .pairs s => wrapped "Pairs" (debugPairs s)
  | .vmSpec v => wrapped "VmSpec" (debugVmSpec v)
  | .declaration d => wrapped "Named" (debugDeclaration d)
  | .declarations ds => wrapped "NamedList" (listed (ds.map debugDeclaration))
  | .service s => wrapped "Service" (debugService s)
  | .services ss => wrapped "Services" (listed (ss.map debugService))
  | .loadBalancer b => wrapped "LoadBalancer" (debugLoadBalancer b)
  | .pool p => wrapped "Pool" (debugPool p)
  | .pools ps => wrapped "Pools" (listed (ps.map debugPool))
  | .box b => wrapped "Box" (debugBox b)
  | .boxes bs => wrapped "Boxes" (listed (bs.map debugBox))
  | .defaults s => wrapped "Defaults" (debugPairs s)
  | .formation f => wrapped "Formation" (debugFormation f)

end Fleet.Document
