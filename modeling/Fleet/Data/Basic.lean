import Fleet.Formation.Basic
/-!
Formations as plain data: records, lists and scalars, with a tag where a value may be of several
kinds. Every data format prints this.
-/

namespace Fleet

inductive Data where
  | null
  | number (n : UInt64)
  | text (s : String)
  | list (items : List Data)
  | record (fields : List (String × Data))
  /-- Says of which kind the payload is. -/
  | tagged (tag : String) (payload : Data)
deriving Repr

def Value.toData : Value → Data
  | quoted text => .tagged "Quoted" (.text text)
  | integer n => .tagged "Integer" (.number n)

def Pair.toData (p : Pair) : Data :=
  .record [("key", .text p.key), ("value", .list (p.values.map Value.toData))]

def Sequence.toData (s : Sequence) : Data := .list (s.map Pair.toData)

def VmSpec.toData (v : VmSpec) : Data :=
  .record [("name", .text v.name), ("count", .number v.count), ("image_name", .text v.image)]

def Declaration.toData (d : Declaration) : Data :=
  .record [("name", .text d.name), ("sequence", d.sequence.toData)]

def Service.toData (s : Service) : Data :=
  .record [("port", .number s.port), ("healthcheck_endpoint", .text s.endpoint),
    ("healthcheck_port", .number s.healthPort)]

/-- A block's own fields stand between its flavor and its sequence. -/
def Block.toDataWith (own : List (String × Data)) (b : Block) : Data :=
  .record ([("vm_spec", b.spec.toData), ("flavor", .text b.flavor)] ++ own ++
    [("bootstrap_sequence", b.sequence.toData)])

def Block.toData (b : Block) : Data := b.toDataWith []

def Pool.toData (p : Pool) : Data :=
  match p.listeners with
  | .http services =>
    .tagged "Http" (p.toBlock.toDataWith [("services", .list (services.map Service.toData))])
  | .tcp ports => .tagged "Tcp" (p.toBlock.toDataWith [("ports", .list (ports.map .number))])

def Formation.toData (f : Formation) : Data :=
  .record [("defaults", f.defaults.toData),
    ("bootstrap_sequences", .list (f.declarations.map Declaration.toData)),
    ("load_balancer", (f.loadBalancer.map Block.toData).getD .null),
    ("pools", .list (f.pools.map Pool.toData)),
    ("boxes", .list (f.boxes.map Block.toData))]

end Fleet
