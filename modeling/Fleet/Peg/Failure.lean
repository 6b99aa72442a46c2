import Fleet.Text.Cursor
/-!
Failures of a match and how two of them become one. The main statement on `furthest` is that the
failure further into the text wins and that failures at one place pool what they expected.
-/

namespace Fleet.Peg
open Fleet.Text

/-- Where a commit had been crossed before the failure that ended the match. -/
structure Anchor where
  rule : String
  line : Nat
  column : Nat
deriving DecidableEq, Repr

/-- What kind of expression could not be matched. -/
inductive Failure.Kind where
  | literal | charClass | endOfText | lookahead | alternatives | action
deriving DecidableEq, Repr

/-- `path` names the rules that were being matched, outermost first. -/
structure Failure where
  path : List String
  cursor : Cursor
  kind : Failure.Kind
  expected : List String
  anchor : Option Anchor
deriving DecidableEq, Repr

/-- Adds what `new` expects and `old` does not, in the order of `new`. -/
def poolExpected (old : List String) : List String → List String
  | [] => old
  | x :: new => if x ∈ old then poolExpected old new else poolExpected (old ++ [x]) new

namespace Failure

def single (path : List String) (cursor : Cursor) (kind : Kind) (expected : String) : Failure :=
  ⟨path, cursor, kind, [expected], none⟩

def offset (e : Failure) : Nat := e.cursor.offset

/-- The failure further into the text, or the first of two at one place with the expectations of
both: a choice then reports every alternative that it tried there. -/
def furthest (e f : Failure) : Failure :=
  if e.offset < f.offset then f
  else if f.offset < e.offset then e
  else { e with expected := poolExpected e.expected f.expected }

/-- Merges a failure into one that may not have happened yet. -/
def join : Option Failure → Failure → Failure
  | none, f => f
  | some e, f => e.furthest f

def context (e : Failure) : String := "/".intercalate e.path

/-- What stands at the failure: the rest of its line in backquotes, unless there is none. -/
def found (e : Failure) : String :=
  if e.cursor.atEnd then "end of input"
  else if e.cursor.line.isEmpty then "end of line"
  else "`" ++ e.cursor.line ++ "`"

/-- One line on the failure alone. -/
def summary (source : String) (e : Failure) : String :=
  let place := s!"{source} at line {e.cursor.pos.line} at column {e.cursor.pos.column}"
  let wanted := " or ".intercalate e.expected
  s!"Error parsing file {place}, when handling {e.context}, expected {wanted}"

end Failure

/-- A failure as it is reported to the author of the text. -/
structure Report where
  source : String
  line : Nat
  column : Nat
  context : String
  expected : List String
  found : String
  committed : Option Anchor
deriving DecidableEq, Repr

def Failure.report (source : String) (e : Failure) : Report where
  source := source
  line := e.cursor.pos.line
  column := e.cursor.pos.column
  context := e.context
  expected := e.expected
  found := e.found
  committed := e.anchor

/-- A text without a name is called by the place it came in through. -/
def Report.message (r : Report) : String :=
  let name := if r.source.isEmpty then "<input>" else r.source
  let place := s!"{name} at line {r.line} at column {r.column}"
  let wanted := " or ".intercalate r.expected
  let inside := match r.committed with
    | none => ""
    | some a => s!" (inside {a.rule} starting at line {a.line} column {a.column})"
  s!"{place}, when handling {r.context}, expected {wanted}, found {r.found}{inside}"

end Fleet.Peg
