import Fleet.Peg.Grammar
/-!
Rule tables without their commits, in which every failure of an element goes back to the choices
around it.
-/

namespace Fleet.Peg

variable {ι ν ε : Type}

mutual

/-- The expression with the commits taken out of its sequences. -/
def Expr.uncommitted : Expr ι → Expr ι
  | .seq items => .seq (uncommittedItems items)
  | .choice items => .choice (uncommittedAll items)
  | .oneOrMore e => .oneOrMore e.uncommitted
  | .zeroOrMore e => .zeroOrMore e.uncommitted
  | .optional e => .optional e.uncommitted
  | .not e => .not e.uncommitted
  | .ignore e => .ignore e.uncommitted
  | .capture name e => .capture name e.uncommitted
  | .literal text => .literal text
  | .oneOf cls => .oneOf cls
  | .any => .any
  | .commit => .commit
  | .rule id => .rule id

/-- The elements of a sequence that are no commits. -/
def Expr.uncommittedItems : List (Expr ι) → List (Expr ι)
  | [] => []
  | .commit :: items => uncommittedItems items
  | e :: items => e.uncommitted :: uncommittedItems items

def Expr.uncommittedAll : List (Expr ι) → List (Expr ι)
  | [] => []
  | e :: items => e.uncommitted :: uncommittedAll items

end

section Elements
variable {e : Expr ι}

theorem uncommitted_ne_commit (h : e ≠ .commit) : e.uncommitted ≠ .commit := by
  cases e with
  | commit => exact absurd rfl h
  | _ => simp [Expr.uncommitted]

theorem uncommittedItems_cons (h : e ≠ .commit) (es : List (Expr ι)) :
    Expr.uncommittedItems (e :: es) = e.uncommitted :: Expr.uncommittedItems es := by
  rw [Expr.uncommittedItems]
  exact h

end Elements

def Grammar.uncommitted (g : Grammar ι ν ε) : Grammar ι ν ε :=
  { g with rule := fun id => { g.rule id with body := (g.rule id).body.uncommitted } }

end Fleet.Peg
