import Fleet.Document.Parse
import Fleet.Formation.Check
import Fleet.Formation.Defaults
/-!
From text to a formation that can be provisioned: parsed, its includes resolved, and checked.
-/

namespace Fleet

def Formation.compile (source text : String) : Journaled Formation := do
  let parsed ← Formation.parse source text
  let resolved ← parsed.resolve
  Journaled.ofExcept resolved.check
  Journaled.note (.compiled source)
  pure resolved

end Fleet
