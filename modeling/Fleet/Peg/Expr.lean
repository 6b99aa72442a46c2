import Fleet.Text.Escaped
/-!
Parsing expressions. Rules are referred to by an index of any type `ι`, so that a closed list of
rules can be an enumeration and an open one a range of numbers.
-/

namespace Fleet.Peg
open Fleet.Text

/-- A set of characters: those listed and those in a range, ends included. -/
structure CharClass where
  label : String
  chars : List Char
  ranges : List (Char × Char)
deriving DecidableEq, Repr

def CharClass.contains (cls : CharClass) (c : Char) : Bool :=
  cls.chars.contains c || cls.ranges.any fun r => decide (r.1 ≤ c) && decide (c ≤ r.2)

inductive Expr (ι : Type) where
  | literal (text : String)
  | oneOf (cls : CharClass)
  | any
  | seq (items : List (Expr ι))
  | choice (items : List (Expr ι))
  | oneOrMore (e : Expr ι)
  | zeroOrMore (e : Expr ι)
  | optional (e : Expr ι)
  | not (e : Expr ι)
  | commit
  | ignore (e : Expr ι)
  | capture (name : String) (e : Expr ι)
  | rule (id : ι)
deriving Repr

namespace Expr
variable {ι : Type}

/-- What an expression wants, said without its rule table: rules go by their number. -/
def describe (number : ι → Nat) : Expr ι → String
  | literal text => quote text
  | oneOf cls => cls.label
  | any => "any character"
  | seq _ => "sequence"
  | choice _ => "choice"
  | oneOrMore e | zeroOrMore e | optional e | ignore e | capture _ e => describe number e
  | not e => "not " ++ describe number e
  | commit => "commit"
  | rule id => "rule#" ++ toString (number id)

mutual
/-- The number of expressions and list links in an expression. -/
def size : Expr ι → Nat
  | seq items | choice items => sizeAll items + 1
  | oneOrMore e | zeroOrMore e | optional e | not e | ignore e | capture _ e => size e + 1
  | literal _ | oneOf _ | any | commit | rule _ => 1
def sizeAll : List (Expr ι) → Nat
  | [] => 1
  | e :: items => size e + sizeAll items + 1
end

end Expr

end Fleet.Peg
