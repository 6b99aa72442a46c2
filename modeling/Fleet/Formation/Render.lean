import Fleet.Formation.Basic
/-!
The canonical text of a formation and its parts. Bodies are indented by two spaces a level, every
line ends in a line feed and an empty line separates blocks and sections.
-/

namespace Fleet

/-- Quoted text has no escapes: it stands in single quotes unless it holds one. What holds both
kinds of quotes has no text that reads back. -/
def quoteValue (text : String) : String :=
  if text.toList.contains '\'' then "\"" ++ text ++ "\"" else "'" ++ text ++ "'"

def renderInteger (n : UInt64) : String := toString n.toNat

def Value.render : Value → String
  | quoted text => quoteValue text
  | integer n => renderInteger n

def renderValues (values : List Value) : String := ", ".intercalate (values.map Value.render)

def Pair.render (p : Pair) : String := p.key ++ ": " ++ renderValues p.values

/-- One line, indented. -/
def renderLine (indent text : String) : String := indent ++ text ++ "\n"

/-- A line for each pair. -/
def Sequence.render (indent : String) (s : Sequence) : String :=
  String.join (s.map fun p => renderLine indent p.render)

def VmSpec.render (v : VmSpec) : String :=
  quoteValue v.name ++ ", " ++ renderInteger v.count ++
    (if v.count = 1 then " instance" else " instances") ++ " with " ++ quoteValue v.image

def Declaration.render (d : Declaration) : String :=
  renderLine "" ("bootstrap-sequence: " ++ quoteValue d.name) ++ d.sequence.render "  "

def Service.render (s : Service) : String :=
  renderLine "  " "service:" ++
    renderLine "    " ("port: " ++ renderInteger s.port) ++
    renderLine "    " ("healthcheck-endpoint: " ++ quoteValue s.endpoint) ++
    renderLine "    " ("healthcheck-port: " ++ renderInteger s.healthPort)

def Listeners.render : Listeners → String
  | http services => String.join (services.map Service.render)
  | tcp ports => renderLine "  " ("ports: " ++ ", ".intercalate (ports.map renderInteger))

/-- A block under its header word, with the lines of its listeners between flavor and steps. -/
def Block.renderAs (header listeners : String) (b : Block) : String :=
  renderLine "" (header ++ ": " ++ b.spec.render) ++
    renderLine "  " ("vm-flavor: " ++ quoteValue b.flavor) ++
    listeners ++
    renderLine "  " "bootstrap-sequence:" ++
    b.sequence.render "    "

def Block.renderLoadBalancer (b : Block) : String := b.renderAs "load-balancer" ""

def Block.renderBox (b : Block) : String := b.renderAs "box" ""

def Pool.render (p : Pool) : String :=
  p.toBlock.renderAs (p.listeners.protocol.tag ++ "-pool") p.listeners.render

/-- The blocks of a formation as text, in order, absent sections left out. -/
def Formation.renderedBlocks (f : Formation) : List String :=
  (if f.defaults.isEmpty then [] else [renderLine "" "defaults:" ++ f.defaults.render "  "]) ++
    f.declarations.map Declaration.render ++
    f.loadBalancer.toList.map Block.renderLoadBalancer ++
    f.pools.map Pool.render ++
    f.boxes.map Block.renderBox

def Formation.render (f : Formation) : String := "\n".intercalate f.renderedBlocks

end Fleet
