import Fleet.Journal
/-!
Includes. A pair with the key `include` stands for the declared sequences that it lists, in that
order; declared sequences may include each other, though not in a circle. Resolving replaces every
include of every block and leaves the declarations as they are.
-/

namespace Fleet

/-- Names with what they expand to, the first one made first. -/
abbrev Expansions := List (String × Sequence)

/-- A name may be declared once; the fault tells the first name that is declared again. -/
def checkDistinct : List Declaration → Except Fault Unit := go []
where
  go (seen : List String) : List Declaration → Except Fault Unit
    | [] => .ok ()
    | d :: rest =>
      if d.name ∈ seen then .error (.duplicateDeclaration d.name) else go (d.name :: seen) rest

/-- The names that the includes of a sequence ask for. -/
def Sequence.targets (s : Sequence) : List String :=
  (s.filter Pair.isInclude).flatMap fun p => p.values.filterMap Value.quoted?

/-- The entry that a value of an include asks for, if it is there and was not asked for before. -/
def Value.requested? (table found : Expansions) : Value → Option (String × Sequence)
  | .integer _ => none
  | .quoted name =>
    if (found.lookup name).isSome then none else (table.lookup name).map fun s => (name, s)

/-- Goes through the values of one include: the entries asked for, in order, and the values that
name nothing, or nothing new. -/
def sortRequests (table : Expansions) : Expansions → List Value → Expansions × List String
  | found, [] => (found, [])
  | found, v :: values =>
    match v.requested? table found with
    | some entry => sortRequests table (found ++ [entry]) values
    | none =>
      let (found, missing) := sortRequests table found values
      (found, v.name :: missing)

/-- The pairs that one include stands for. -/
def expandInclude (owner : Owner) (table : Expansions) (values : List Value) :
    Journaled Sequence :=
  match sortRequests table [] values with
  | (found, []) => do
    Journaled.note (.expanding found.length owner)
    pure (found.flatMap (·.2))
  | (_, missing) => throw (.missingSequences owner (values.map Value.name) missing)

/-- Replaces the includes of a sequence and keeps its other pairs where they are. -/
def expand (owner : Owner) (table : Expansions) : Sequence → Journaled Sequence
  | [] => pure []
  | p :: s => do
    let here ← if p.isInclude then expandInclude owner table p.values else pure [p]
    let rest ← expand owner table s
    pure (here ++ rest)

/-- How many declarations are not being expanded already. -/
def openDeclarations (declared : List Declaration) (chain : List String) : Nat :=
  declared.countP fun d => d.name ∉ chain

theorem openDeclarations_lt {declared : List Declaration} {chain : List String} {name : String}
    {d : Declaration} (hc : name ∉ chain)
    (hd : declared.find? (fun d => d.name == name) = some d) :
    openDeclarations declared (chain ++ [name]) < openDeclarations declared chain := by
  unfold openDeclarations
  induction declared with
  | nil => simp at hd
  | cons e rest ih =>
    have mono : rest.countP (fun d => d.name ∉ chain ++ [name]) ≤
        rest.countP (fun d => d.name ∉ chain) :=
      List.countP_mono_left fun x _ hx => by simp_all
    rw [List.countP_cons, List.countP_cons]
    by_cases he : e.name = name
    · simp [he, hc] at mono ⊢; omega
    · have := ih (by simpa [List.find?_cons, he] using hd)
      by_cases hm : e.name ∈ chain <;> simp [he, hm] at this ⊢ <;> omega

mutual

/-- Enters the expansion of a declared name after those of all that it includes. `chain` holds
the names that are being expanded, so meeting one of them again closes a circle. A name that is
not declared is left for the sequence that asks for it to report. -/
def visit (declared : List Declaration) (chain : List String) (name : String)
    (table : Expansions) : Journaled Expansions :=
  if (table.lookup name).isSome then pure table
  else if _hc : name ∈ chain then
    throw (.cyclicInclude (chain.dropWhile (· != name) ++ [name]))
  else
    match _hd : declared.find? fun d => d.name == name with
    | none => pure table
    | some d => do
      let table ← visitAll declared (chain ++ [name]) d.sequence.targets table
      let expanded ← expand (.declaration name) table d.sequence
      pure (table ++ [(name, expanded)])
termination_by (openDeclarations declared chain, 0)
decreasing_by exact Prod.Lex.left _ _ (openDeclarations_lt _hc _hd)

def visitAll (declared : List Declaration) (chain : List String) (names : List String)
    (table : Expansions) : Journaled Expansions :=
  match names with
  | [] => pure table
  | name :: names => do
    let table ← visit declared chain name table
    visitAll declared chain names table
termination_by (openDeclarations declared chain, names.length + 1)
decreasing_by
  · exact Prod.Lex.right _ (by simp)
  · exact Prod.Lex.right _ (by simp)

end

/-- The expansion of every declaration. -/
def expansions (declared : List Declaration) : Journaled Expansions := do
  Journaled.ofExcept (checkDistinct declared)
  visitAll declared [] (declared.map Declaration.name) []

def expandOwned (table : Expansions) : List (Owner × Sequence) → Journaled (List Sequence)
  | [] => pure []
  | (owner, s) :: rest => do
    Journaled.note (.resolving owner)
    let here ← expand owner table s
    let others ← expandOwned table rest
    pure (here :: others)

/-- Replaces the includes of every block. There is no formation with only some of them replaced:
the blocks are rewritten after all have been expanded. -/
def Formation.resolve (f : Formation) : Journaled Formation := do
  let table ← expansions f.declarations
  let new ← expandOwned table f.owned
  pure (f.withSequences new)

end Fleet
