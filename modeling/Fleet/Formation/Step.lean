import Fleet.Formation.Basic
/-!
What a pair of a sequence asks for. Steps are only told apart here; carrying them out is for
whoever provisions the machines.
-/

namespace Fleet

inductive Step where
  | git (values : List Value)
  | file (values : List Value)
  | directory (values : List Value)
  | inlineBash (values : List Value)
  | generic (key : String) (values : List Value)
deriving DecidableEq, Repr

def Pair.step (p : Pair) : Step :=
  if p.key = "git" then .git p.values
  else if p.key = "file" then .file p.values
  else if p.key = "directory" then .directory p.values
  else if p.key = "inline bash" then .inlineBash p.values
  else .generic p.key p.values

end Fleet
