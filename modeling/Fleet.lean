import Fleet.Document.Layout
import Fleet.Files
import Fleet.Formation.InPlace
import Fleet.Formation.IncludeGraph
import Fleet.Formation.Lemmas
import Fleet.Formation.Representable
import Fleet.Formation.Step
import Fleet.Main
import Fleet.Peg.Equations
import Fleet.Peg.LeftRecursion
import Fleet.Peg.LineNeutral
import Fleet.Peg.Semantics
import Fleet.Peg.Steps
import Fleet.Peg.Trace
import Fleet.Peg.Uncommitted
import Fleet.Proofs.Accepted.Apart
import Fleet.Proofs.Accepted.Blocks
import Fleet.Proofs.Accepted.Documents
import Fleet.Proofs.Accepted.Kinds
import Fleet.Proofs.Accepted.Refusals
import Fleet.Proofs.Accepted.Sections
import Fleet.Proofs.Accepted.Tokens
import Fleet.Proofs.Command.Validation
import Fleet.Proofs.Disk.Paths
import Fleet.Proofs.Document.Blocks
import Fleet.Proofs.Document.Commits
import Fleet.Proofs.Document.DeadEnds
import Fleet.Proofs.Document.Documents
import Fleet.Proofs.Document.LineEnds
import Fleet.Proofs.Document.Lines
import Fleet.Proofs.Document.Pairs
import Fleet.Proofs.Document.Ranks
import Fleet.Proofs.Document.Rendering
import Fleet.Proofs.Document.RoundTrip
import Fleet.Proofs.Document.Sections
import Fleet.Proofs.Document.Spacing
import Fleet.Proofs.Document.Surroundings
import Fleet.Proofs.Document.Termination
import Fleet.Proofs.Document.Tokens
import Fleet.Proofs.Document.Values
import Fleet.Proofs.Formation.Checking
import Fleet.Proofs.Formation.Expansion
import Fleet.Proofs.Formation.Faults
import Fleet.Proofs.Formation.Fixpoints
import Fleet.Proofs.Formation.InPlace
import Fleet.Proofs.Formation.Layering
import Fleet.Proofs.Formation.Merging
import Fleet.Proofs.Formation.Reports
import Fleet.Proofs.Formation.Resolution
import Fleet.Proofs.Formation.Search
import Fleet.Proofs.Formation.Spelling
import Fleet.Proofs.Formation.Substitution
import Fleet.Proofs.Formation.Visits
import Fleet.Proofs.Peg.Aborts
import Fleet.Proofs.Peg.Abreast
import Fleet.Proofs.Peg.Absorption
import Fleet.Proofs.Peg.Acceptance
import Fleet.Proofs.Peg.Account
import Fleet.Proofs.Peg.Adequacy
import Fleet.Proofs.Peg.Agreement
import Fleet.Proofs.Peg.Budget
import Fleet.Proofs.Peg.Captured
import Fleet.Proofs.Peg.Commits
import Fleet.Proofs.Peg.Completeness
import Fleet.Proofs.Peg.Consumption
import Fleet.Proofs.Peg.Derivation
import Fleet.Proofs.Peg.Furthest
import Fleet.Proofs.Peg.Grouping
import Fleet.Proofs.Peg.LineEnds
import Fleet.Proofs.Peg.Listing
import Fleet.Proofs.Peg.Pruning
import Fleet.Proofs.Peg.Repetition
import Fleet.Proofs.Peg.Reports
import Fleet.Proofs.Peg.Restoration
import Fleet.Proofs.Peg.Soundness
import Fleet.Proofs.Peg.Termination
import Fleet.Proofs.Peg.Tracing
import Fleet.Proofs.Peg.Verdict
import Fleet.Text.ControlSequence
import Fleet.Text.LineEnd
