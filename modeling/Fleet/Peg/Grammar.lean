import Fleet.Peg.Captures
import Fleet.Peg.Expr
/-!
Rule tables. A rule without an action is transparent: what its body yields and captures belongs to
the rule that refers to it. A rule with an action captures for itself and yields the nodes that
its action makes.
-/

namespace Fleet.Peg

structure Rule (ι ν ε : Type) where
  name : String
  body : Expr ι
  action : Option (Captures ν → Except ε (List ν))

/-- A table of rules, read only while matching, with its rules in order. -/
structure Grammar (ι ν ε : Type) where
  ids : List ι
  rule : ι → Rule ι ν ε
  mem_ids : ∀ i, i ∈ ids

namespace Rule
variable {ι ν ε : Type}

def transparent (name : String) (body : Expr ι) : Rule ι ν ε := ⟨name, body, none⟩

def acting (name : String) (body : Expr ι) (action : Captures ν → Except ε (List ν)) :
    Rule ι ν ε := ⟨name, body, some action⟩

/-- One element, then any number of a separator and one more. The last separator is given back
when no element follows it. -/
def listBody (element : ι) (separator : Expr ι) : Expr ι :=
  .seq [.capture "first" (.rule element),
    .capture "rest" (.zeroOrMore (.seq [.ignore separator, .rule element]))]

/-- The nodes of a list rule's elements, in the order of the text. -/
def listNodes (c : Captures ν) : List ν := c.nodes "first" ++ c.nodes "rest"

/-- A list rule drops its separators and makes one node of the elements' nodes. -/
def listOf (name : String) (element : ι) (separator : Expr ι) (make : List ν → Except ε ν) :
    Rule ι ν ε :=
  acting name (listBody element separator) fun c => (make (listNodes c)).map ([·])

end Rule

namespace Grammar
variable {ι ν ε : Type}

def number [BEq ι] (g : Grammar ι ν ε) (id : ι) : Nat := g.ids.idxOf id

/-- What an expression wants, for the message of a lookahead that failed: rules go by name and a
choice by its alternatives. -/
def describe [BEq ι] (g : Grammar ι ν ε) : Expr ι → String
  | .rule id => (g.rule id).name
  | .not e => "not " ++ describe g e
  | .choice items => " or ".intercalate (describeAll items)
  | e => e.describe g.number
where
  describeAll : List (Expr ι) → List String
    | [] => []
    | e :: items => describe g e :: describeAll items

/-- Enough steps for the body of any rule, once it is entered. -/
def bodyBudget (g : Grammar ι ν ε) : Nat :=
  (g.ids.map fun i => 2 * (g.rule i).body.size + 2).foldl max 2

/-- Enough steps for a match of any rule against `length` characters, if no rule refers to itself
before it has consumed a character: between two characters each rule is entered once at most,
and a body takes no more steps than its size allows. -/
def budget (g : Grammar ι ν ε) (length : Nat) : Nat :=
  (length + 1) * (g.ids.length + 1) * g.bodyBudget

end Grammar

end Fleet.Peg
