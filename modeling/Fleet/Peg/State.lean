import Fleet.Peg.Failure
import Fleet.Peg.Grammar
/-!
What a matcher carries along: the rules being matched, the captures of each action rule among
them, how deep in lookaheads it is, the furthest failure so far and the rejection that ended it.
-/

namespace Fleet.Peg
open Fleet.Text

structure Frame where
  name : String
  start : Position
deriving DecidableEq, Repr

/-- An action's refusal of a match, for the journal. -/
structure Rejection (ε : Type) where
  rule : String
  line : Nat
  error : ε
deriving DecidableEq, Repr

/-- `frames` and `outer` have the innermost first; `scope` belongs to the innermost action rule.
`rejection` is the one still pending and `rejections` are all of them, the latest first. -/
structure State (ν ε : Type) where
  frames : List Frame
  scope : Captures ν
  outer : List (Captures ν)
  lookahead : Nat
  furthest : Option Failure
  rejection : Option ε
  rejections : List (Rejection ε)
deriving DecidableEq, Repr

inductive Outcome (ν : Type) where
  | matched (rest : Cursor) (items : List (Item ν))
  /-- Another alternative may be tried. -/
  | failed (e : Failure)
  /-- Only an enclosing lookahead ends this. -/
  | aborted (e : Failure)
deriving DecidableEq, Repr

/-- The outcome with the items of a match before it. -/
def Outcome.after {ν : Type} (first : List (Item ν)) : Outcome ν → Outcome ν
  | .matched rest more => .matched rest (first ++ more)
  | o => o

def Outcome.isMatch {ν : Type} : Outcome ν → Bool
  | .matched .. => true
  | _ => false

namespace State
variable {ν ε : Type}

def start : State ν ε where
  frames := []
  scope := .empty
  outer := []
  lookahead := 0
  furthest := none
  rejection := none
  rejections := []

/-- The names of the rules being matched, outermost first. -/
def path (s : State ν ε) : List String := (s.frames.map Frame.name).reverse

/-- Notes a failure. What fails inside a lookahead is not an error of the text. -/
def record (s : State ν ε) (e : Failure) : State ν ε :=
  if s.lookahead = 0 then { s with furthest := some (Failure.join s.furthest e) } else s

/-- A recoverable failure to match something at `k`. -/
def fail (s : State ν ε) (k : Cursor) (kind : Failure.Kind) (expected : String) :
    Outcome ν × State ν ε :=
  let e := Failure.single s.path k kind expected
  (.failed e, s.record e)

/-- A committed failure is anchored where the innermost rule began, once. -/
def anchored (s : State ν ε) (e : Failure) : Failure :=
  match e.anchor, s.frames with
  | none, f :: _ => { e with anchor := some ⟨f.name, f.start.line, f.start.column⟩ }
  | _, _ => e

def resetScope (s : State ν ε) (mark : Nat) : State ν ε := { s with scope := s.scope.reset mark }

def capture (s : State ν ε) (name : String) (items : List (Item ν)) : State ν ε :=
  { s with scope := s.scope.bindAll name items }

def lookAhead (s : State ν ε) : State ν ε := { s with lookahead := s.lookahead + 1 }

/-- Leaves a lookahead, dropping what was captured in it. -/
def lookBack (s : State ν ε) (mark : Nat) : State ν ε :=
  { s with lookahead := s.lookahead - 1, scope := s.scope.reset mark }

def clearRejection (s : State ν ε) : State ν ε := { s with rejection := none }

def enter (s : State ν ε) (name : String) (start : Position) : State ν ε :=
  { s with frames := ⟨name, start⟩ :: s.frames }

def leave (s : State ν ε) : State ν ε := { s with frames := s.frames.tail }

/-- Begins the captures of an action rule. -/
def openScope (s : State ν ε) : State ν ε :=
  { s with scope := .empty, outer := s.scope :: s.outer }

/-- Goes back to the captures of the rule around. The outermost scope is never closed. -/
def closeScope (s : State ν ε) : State ν ε :=
  match s.outer with
  | [] => s
  | c :: outer => { s with scope := c, outer := outer }

def reject (s : State ν ε) (rule : String) (line : Nat) (error : ε) : State ν ε :=
  { s with rejection := some error, rejections := ⟨rule, line, error⟩ :: s.rejections }

/-- Forgets what was captured since `mark`, unless there was a match. -/
def unwind (mark : Nat) : Outcome ν × State ν ε → Outcome ν × State ν ε
  | (.matched rest items, s) => (.matched rest items, s)
  | (o, s) => (o, s.resetScope mark)

end State

end Fleet.Peg
