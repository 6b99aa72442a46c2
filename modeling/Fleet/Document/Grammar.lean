import Fleet.Document.Action
import Fleet.Peg.Grammar
/-!
The grammar of documents. A document has its sections in one order: defaults, declared sequences,
a load balancer with its pools, boxes. Lists end where their separator or next element fails, and
after the words that open a construct a commit makes every failure in it final.
-/

namespace Fleet.Document
open Fleet.Peg

/-- The rules of a document. -/
inductive Symbol where
  | newline | integer | integerList | key | singleQuoted | doubleQuoted | quoted | value
  | valueList | pair | pairList | vmSpec | declaration | declarationList | flavor | steps
  | loadBalancer | service | serviceList | ports | pool | poolList | box | boxList | defaults
  | endOfInput | sectionBreak | start
deriving DecidableEq, Repr

namespace Symbol

def all : List Symbol :=
  [newline, integer, integerList, key, singleQuoted, doubleQuoted, quoted, value, valueList, pair,
    pairList, vmSpec, declaration, declarationList, flavor, steps, loadBalancer, service,
    serviceList, ports, pool, poolList, box, boxList, defaults, endOfInput, sectionBreak, start]

theorem mem_all (s : Symbol) : s ∈ all := by cases s <;> decide

end Symbol

def blank : CharClass := ⟨"space or tab", [' ', '\t'], []⟩

def digit : CharClass := ⟨"digit", [], [('0', '9')]⟩

def nonZeroDigit : CharClass := ⟨"digit 1-9", [], [('1', '9')]⟩

def letter : CharClass := ⟨"letter", [], [('a', 'z'), ('A', 'Z')]⟩

/-- Between the words of a key. -/
def keyJoiner : CharClass := ⟨"'-' or space", ['-', ' '], []⟩

/-- In the words of a key after the first. -/
def keyChar : CharClass :=
  ⟨"letter, digit, '_' or '.'", ['_', '.'], [('a', 'z'), ('A', 'Z'), ('0', '9')]⟩

namespace Form
open Expr

def blanks : Expr Symbol := zeroOrMore (oneOf blank)

def newline : Expr Symbol := rule .newline

/-- Text between two quotes of one kind, on one line. -/
def quotedBy (mark : String) : Expr Symbol :=
  seq [literal mark, commit,
    capture "text" (zeroOrMore (seq [not (choice [literal mark, newline]), any])),
    literal mark]

/-- A block's flavor and steps, with its own lines in between. -/
def blockLines (listeners : List (Expr Symbol)) : List (Expr Symbol) :=
  [commit, capture "vm_spec" (rule Symbol.vmSpec), newline,
      capture "flavor" (rule Symbol.flavor), newline] ++
    listeners ++ [capture "bootstrap_sequence" (rule Symbol.steps)]

def integer : Expr Symbol :=
  capture "digits" (seq [oneOf nonZeroDigit, zeroOrMore (oneOf digit)])

def key : Expr Symbol :=
  capture "key"
    (seq [oneOrMore (oneOf letter),
      zeroOrMore (seq [oneOf keyJoiner, oneOrMore (oneOf keyChar)])])

def pair : Expr Symbol :=
  seq [blanks, capture "key" (rule .key), literal ": ", commit,
    capture "value" (rule .valueList)]

def vmSpec : Expr Symbol :=
  seq [capture "name" (rule .quoted), literal ", ", commit, capture "count" (rule .integer),
    choice [literal " instances ", literal " instance "], commit, literal "with ",
    capture "image_name" (rule .quoted)]

def declaration : Expr Symbol :=
  seq [literal "bootstrap-sequence: ", commit, capture "name" (rule .quoted), newline,
    capture "sequence" (rule .pairList)]

def flavor : Expr Symbol := seq [blanks, literal "vm-flavor: ", commit, rule .quoted]

def steps : Expr Symbol :=
  seq [blanks, literal "bootstrap-sequence:", commit, newline, rule .pairList]

def loadBalancer : Expr Symbol := seq (literal "load-balancer: " :: blockLines [])

def service : Expr Symbol :=
  seq [blanks, literal "service:", commit, newline,
    blanks, literal "port: ", capture "port" (rule .integer), newline,
    blanks, literal "healthcheck-endpoint: ", capture "endpoint" (rule .quoted), newline,
    blanks, literal "healthcheck-port: ", capture "healthcheck_port" (rule .integer)]

def ports : Expr Symbol := seq [blanks, literal "ports: ", commit, rule .integerList]

def pool : Expr Symbol :=
  seq (capture "pool_type" (choice [literal "http", literal "tcp"]) :: literal "-pool: " ::
    blockLines [capture "listeners" (choice [rule .serviceList, rule .ports]), newline])

def box : Expr Symbol := seq (literal "box: " :: blockLines [])

def defaults : Expr Symbol :=
  seq [literal "defaults:", commit, newline, capture "defaults" (rule .pairList)]

def endOfInput : Expr Symbol :=
  seq [zeroOrMore (choice [oneOf blank, newline]), not any]

def sectionBreak : Expr Symbol := choice [oneOrMore newline, rule .endOfInput]

def document : Expr Symbol :=
  seq [zeroOrMore newline,
    optional (seq [capture "defaults" (rule .defaults), rule .sectionBreak]),
    optional (seq [capture "named" (rule .declarationList), rule .sectionBreak]),
    optional (seq [capture "load_balancer" (rule .loadBalancer), oneOrMore newline,
      capture "pools" (rule .poolList), rule .sectionBreak]),
    optional (capture "boxes" (rule .boxList)),
    rule .endOfInput]

end Form

/-- Every rule with the name it has in diagnostics. -/
def rule : Symbol → Rule Symbol Node Fault
  | .newline =>
    .transparent "newline" (.choice [.literal "\r\n", .literal "\n", .literal "\r"])
  | .integer => .acting "integer" Form.integer Action.integer
  | .integerList =>
    .listOf "integer_list" .integer (.literal ", ")
      (listNode "integer" Node.integer? Node.integers)
  | .key => .acting "key" Form.key Action.key
  | .singleQuoted => .acting "single_quoted_value" (Form.quotedBy "'") Action.quoted
  | .doubleQuoted => .acting "double_quoted_value" (Form.quotedBy "\"") Action.quoted
  | .quoted =>
    .transparent "quoted_value" (.choice [.rule .singleQuoted, .rule .doubleQuoted])
  | .value => .transparent "value" (.choice [.rule .quoted, .rule .integer])
  | .valueList =>
    .listOf "value_list" .value (.literal ", ")
      (listNode "quoted value or integer" Node.value? Node.values)
  | .pair => .acting "generic_pair" Form.pair Action.pair
  | .pairList =>
    .listOf "generic_pair_list" .pair Form.newline (listNode "pair" Node.pair? Node.pairs)
  | .vmSpec => .acting "vm_spec" Form.vmSpec Action.vmSpec
  | .declaration => .acting "named_bootstrap_sequence" Form.declaration Action.declaration
  | .declarationList =>
    .listOf "named_bootstrap_sequence_list" .declaration (.oneOrMore Form.newline)
      (listNode "named bootstrap sequence" Node.declaration? Node.declarations)
  | .flavor => .transparent "vm_flavor" Form.flavor
  | .steps => .transparent "bootstrap_sequence" Form.steps
  | .loadBalancer => .acting "load_balancer_block" Form.loadBalancer Action.loadBalancer
  | .service => .acting "service_def" Form.service Action.service
  | .serviceList =>
    .listOf "service_defs" .service Form.newline
      (listNode "service" Node.service? Node.services)
  | .ports => .transparent "ports" Form.ports
  | .pool => .acting "pool_def_block" Form.pool Action.pool
  | .poolList =>
    .listOf "pool_def_block_list" .pool (.oneOrMore Form.newline)
      (listNode "pool definition" Node.pool? Node.pools)
  | .box => .acting "box_def_block" Form.box Action.box
  | .boxList =>
    .listOf "box_def_block_list" .box (.oneOrMore Form.newline)
      (listNode "box definition" Node.box? Node.boxes)
  | .defaults => .acting "defaults" Form.defaults Action.defaults
  | .endOfInput => .transparent "end_of_input" Form.endOfInput
  | .sectionBreak => .transparent "section_break" Form.sectionBreak
  | .start => .acting "start" Form.document Action.formation

def grammar : Grammar Symbol Node Fault := ⟨Symbol.all, rule, Symbol.mem_all⟩

def Symbol.name (s : Symbol) : String := (rule s).name

def Symbol.ofName? (name : String) : Option Symbol := Symbol.all.find? fun s => s.name == name

end Fleet.Document
