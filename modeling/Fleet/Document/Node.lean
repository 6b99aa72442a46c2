import Fleet.Formation.Basic
/-!
What the rules of a document make of the text that they match.
-/

namespace Fleet.Document

inductive Node where
  | integer (n : UInt64)
  | integers (ns : List UInt64)
  | quoted (text : String)
  | key (text : String)
  | values (vs : List Value)
  | pair (p : Pair)
  | pairs (s : Sequence)
  | vmSpec (v : VmSpec)
  | declaration (d : Declaration)
  | declarations (ds : List Declaration)
  | service (s : Service)
  | services (ss : List Service)
  | loadBalancer (b : Block)
  | pool (p : Pool)
  | pools (ps : List Pool)
  | box (b : Block)
  | boxes (bs : List Block)
  | defaults (s : Sequence)
  | formation (f : Formation)
deriving DecidableEq, Repr

namespace Node

def integer? : Node → Option UInt64
  | integer n => some n
  | _ => none

def quoted? : Node → Option String
  | quoted text => some text
  | _ => none

def key? : Node → Option String
  | key text => some text
  | _ => none

/-- A value of a list is quoted text or an integer. -/
def value? : Node → Option Value
  | quoted text => some (.quoted text)
  | integer n => some (.integer n)
  | _ => none

/-- The node that a value is read as. -/
def ofValue : Value → Node
  | .quoted text => quoted text
  | .integer n => integer n

theorem value?_ofValue (v : Value) : (ofValue v).value? = some v := by cases v <;> rfl

def values? : Node → Option (List Value)
  | values vs => some vs
  | _ => none

def pair? : Node → Option Pair
  | pair p => some p
  | _ => none

def pairs? : Node → Option Sequence
  | pairs s => some s
  | _ => none

def vmSpec? : Node → Option VmSpec
  | vmSpec v => some v
  | _ => none

def declaration? : Node → Option Declaration
  | declaration d => some d
  | _ => none

def declarations? : Node → Option (List Declaration)
  | declarations ds => some ds
  | _ => none

def service? : Node → Option Service
  | service s => some s
  | _ => none

/-- The node that the listeners of a pool are read as. -/
def ofListeners : Listeners → Node
  | .http ss => services ss
  | .tcp ns => integers ns

def loadBalancer? : Node → Option Block
  | loadBalancer b => some b
  | _ => none

def pool? : Node → Option Pool
  | pool p => some p
  | _ => none

def pools? : Node → Option (List Pool)
  | pools ps => some ps
  | _ => none

def box? : Node → Option Block
  | box b => some b
  | _ => none

def boxes? : Node → Option (List Block)
  | boxes bs => some bs
  | _ => none

def defaults? : Node → Option Sequence
  | defaults s => some s
  | _ => none

def formation? : Node → Option Formation
  | formation f => some f
  | _ => none

end Node

end Fleet.Document
