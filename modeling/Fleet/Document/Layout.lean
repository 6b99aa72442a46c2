import Fleet.Formation.Representable
import Fleet.Text.Language
/-!
Which texts are documents of a formation. A document leaves open how lines end, how lines in a
block are indented, how many line ends separate blocks, and which quotes text stands in; all else
is settled by the formation.
-/

namespace Fleet.Document.Layout
open Fleet.Text Language

def isBreak (c : Char) : Prop := c = '\n' ∨ c = '\r'

def newline : Language := fun t => t = ['\r', '\n'] ∨ t = ['\n'] ∨ t = ['\r']

def newlines : Language := newline.plus

/-- Line ends that are more than one, however they are counted: an empty line is among them. -/
def gap : Language := fun t => newlines t ∧ ¬ newline t

def isBlank (c : Char) : Prop := c = ' ' ∨ c = '\t'

def blanks : Language := fun t => ∀ c ∈ t, isBlank c

/-- Text in quotes of a kind that it does not hold. -/
def quoted (text : String) : Language := fun t =>
  ∃ q, (q = '\'' ∨ q = '"') ∧ q ∉ text.toList ∧ t = q :: (text.toList ++ [q])

def integer (n : UInt64) : Language := word (toString n.toNat)

def value : Value → Language
  | .quoted text => quoted text
  | .integer n => integer n

def values (vs : List Value) : Language := joined (word ", ") (vs.map value)

def pair (p : Pair) : Language := concat [word p.key, word ": ", values p.values]

/-- A line that may be indented. -/
def indented (p : Language) : Language := blanks.append p

/-- Lines with one line end between every two. -/
def lines (ps : List Language) : Language := joined newline ps

def pairs (s : Sequence) : List Language := s.map fun p => indented (pair p)

/-- One machine may be said to be one of several instances. -/
def vmSpec (v : VmSpec) : Language :=
  concat [quoted v.name, word ", ", integer v.count,
    either (word " instances ") (word " instance "), word "with ", quoted v.image]

def flavor (text : String) : Language := indented (concat [word "vm-flavor: ", quoted text])

def steps (s : Sequence) : List Language := indented (word "bootstrap-sequence:") :: pairs s

def declaration (d : Declaration) : Language :=
  lines (concat [word "bootstrap-sequence: ", quoted d.name] :: pairs d.sequence)

def service (s : Service) : List Language :=
  [indented (word "service:"),
    indented (concat [word "port: ", integer s.port]),
    indented (concat [word "healthcheck-endpoint: ", quoted s.endpoint]),
    indented (concat [word "healthcheck-port: ", integer s.healthPort])]

def ports (ns : List UInt64) : Language :=
  concat [word "ports: ", joined (word ", ") (ns.map integer)]

def listeners : Listeners → List Language
  | .http services => services.flatMap service
  | .tcp ns => [indented (ports ns)]

theorem service_ne_nil (s : Service) : service s ≠ [] := by simp [service]

theorem listeners_ne_nil {l : Listeners} (h : l.Representable) : listeners l ≠ [] := by
  cases l with
  | http ss =>
    obtain ⟨s, ss, rfl⟩ := List.exists_cons_of_ne_nil h.1
    simp [listeners, service]
  | tcp ns => simp [listeners]

/-- A block under a header word, its own lines between flavor and steps. -/
def block (header : String) (own : List Language) (b : Block) : Language :=
  lines (concat [word header, vmSpec b.spec] :: flavor b.flavor :: (own ++ steps b.sequence))

def loadBalancer (b : Block) : Language := block "load-balancer: " [] b

def pool (p : Pool) : Language :=
  block (p.listeners.protocol.tag ++ "-pool: ") (listeners p.listeners) p.toBlock

def box (b : Block) : Language := block "box: " [] b

def defaults (s : Sequence) : Language := lines (word "defaults:" :: pairs s)

/-- The blocks of a formation in the order of its sections, those that are absent left out. -/
def blocks (f : Formation) : List Language :=
  (if f.defaults.isEmpty then [] else [defaults f.defaults]) ++ f.declarations.map declaration ++
    f.loadBalancer.toList.map loadBalancer ++ f.pools.map pool ++ f.boxes.map box

/-- Whatever follows the last block. -/
def trailing : Language := fun t => ∀ c ∈ t, isBlank c ∨ isBreak c

/-- A document whose blocks stand apart as `separator` says. With nothing but line ends between
them, the lines of a block may read like pairs of the block before; a `gap` rules that out. -/
def document (separator : Language) (f : Formation) : Language :=
  concat [Star newline, joined separator (blocks f), trailing]

/-- Blocks of one section and line ends after them, or nothing where the section is absent. -/
def sectionOf (ls : List Language) : Language :=
  if ls.isEmpty then nothing else (joined newlines ls).append newlines

/-- The load balancer and its pools. Where they come last, the text may end with them. -/
def machines (f : Formation) : Language :=
  match f.loadBalancer with
  | none => nothing
  | some b =>
    concat [loadBalancer b, newlines, joined newlines (f.pools.map pool),
      if f.boxes.isEmpty then either newlines nothing else newlines]

/-- A document section by section, in the order in which they come. -/
def sections (f : Formation) : Language :=
  concat [Star newline,
    sectionOf (if f.defaults.isEmpty then [] else [defaults f.defaults]),
    sectionOf (f.declarations.map declaration),
    machines f,
    joined newlines (f.boxes.map box),
    trailing]

end Fleet.Document.Layout
