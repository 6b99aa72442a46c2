import Fleet.Compile
import Fleet.Proofs.Formation.Visits
import Fleet.Proofs.Peg.Invariants
/-!
Which faults there can be: an action's are of three kinds (`faultsIn_action`), and so are those of
resolving (`resolve_faultsIn`).
-/

namespace Fleet
open Document Peg

variable {α β : Type} {P : Fault → Prop}

/-- If the computation fails, it is with such a fault. -/
def FaultsIn (P : Fault → Prop) (x : Except Fault α) : Prop := ∀ e, x = .error e → P e

namespace FaultsIn

theorem ok (a : α) : FaultsIn P (.ok a : Except Fault α) := by nofun

theorem error {e : Fault} (h : P e) : FaultsIn P (.error e : Except Fault α) := by
  intro _ hp
  cases hp
  exact h

theorem bind {x : Except Fault α} {f : α → Except Fault β} (hx : FaultsIn P x)
    (hf : ∀ a, FaultsIn P (f a)) : FaultsIn P (x >>= f) := by
  cases x with
  | error e => exact error (hx e rfl)
  | ok a => exact hf a

theorem imp {Q : Fault → Prop} {x : Except Fault α} (hx : FaultsIn P x) (h : ∀ e, P e → Q e) :
    FaultsIn Q x := fun e he => h e (hx e he)

theorem map {x : Except Fault α} {f : α → β} (hx : FaultsIn P x) : FaultsIn P (x.map f) := by
  cases x with
  | error e => exact error (hx e rfl)
  | ok a => exact ok _

/-- The steps of a journaled computation fail as they do without the journal. -/
theorem journaled {x : Journaled α} {f : α → Journaled β} (hx : FaultsIn P x.outcome)
    (hf : ∀ a, FaultsIn P (f a).outcome) : FaultsIn P (x >>= f).outcome := by
  rw [Journaled.outcome_bind]
  exact bind hx hf

end FaultsIn

/-! ## Actions -/

/-- What an action may refuse a match with. -/
inductive Fault.OfAction : Fault → Prop where
  | incompatible (expectation : String) : OfAction (.incompatible expectation)
  | invalidValue (defect : Defect) : OfAction (.invalidValue defect)
  | emptyFormation : OfAction .emptyFormation

variable {c : Captures Node} {name wanted : String} {pick : Node → Option α}

theorem faultsIn_required : FaultsIn Fault.OfAction (required c name pick wanted) := by
  unfold required
  split
  · exact .ok _
  · exact .error (.incompatible _)

theorem faultsIn_orElse {absent : α} :
    FaultsIn Fault.OfAction (orElse c name pick absent wanted) := by
  unfold orElse
  split
  · exact .ok _
  · exact faultsIn_required

theorem faultsIn_gather {nodes : List Node} :
    FaultsIn Fault.OfAction (gather wanted pick nodes) := by
  induction nodes with
  | nil => exact .ok _
  | cons n nodes ih =>
    rw [gather]
    split
    · exact ih.map
    · exact .error (.incompatible _)

theorem faultsIn_listNode {make : List α → Node} {nodes : List Node} :
    FaultsIn Fault.OfAction ((listNode wanted pick make nodes).map ([·])) :=
  faultsIn_gather.map.map

theorem faultsIn_block : FaultsIn Fault.OfAction (Action.block c) :=
  faultsIn_required.bind fun _ => faultsIn_required.bind fun _ => faultsIn_required.bind fun _ =>
    .ok _

theorem faultsIn_pool : FaultsIn Fault.OfAction (Action.pool c) := by
  refine faultsIn_block.bind fun b => ?_
  split
  · exact .ok _
  · exact .ok _
  all_goals exact .error (.invalidValue _)

theorem faultsIn_formation : FaultsIn Fault.OfAction (Action.formation c) := by
  refine faultsIn_orElse.bind fun _ => faultsIn_orElse.bind fun _ => faultsIn_orElse.bind fun _ =>
    faultsIn_orElse.bind fun _ => faultsIn_orElse.bind fun _ => ?_
  split
  · exact .error .emptyFormation
  · exact .ok _

/-- Whatever rule's action it is. -/
theorem faultsIn_action {id : Symbol} {action : Action}
    (ha : (grammar.rule id).action = some action) (c : Captures Node) :
    FaultsIn Fault.OfAction (action c) := by
  cases id with
  | newline | quoted | value | flavor | steps | ports | endOfInput | sectionBreak => cases ha
  | integerList | valueList | pairList | declarationList | serviceList | poolList | boxList =>
    cases ha
    exact faultsIn_listNode
  | integer =>
    cases ha
    unfold Action.integer
    dsimp only
    split
    · exact .ok _
    · exact .error (.invalidValue _)
  | key | singleQuoted | doubleQuoted =>
    cases ha
    exact .ok _
  | pair | declaration =>
    cases ha
    exact faultsIn_required.bind fun _ => faultsIn_required.bind fun _ => .ok _
  | vmSpec | service =>
    cases ha
    exact faultsIn_required.bind fun _ => faultsIn_required.bind fun _ =>
      faultsIn_required.bind fun _ => .ok _
  | loadBalancer | box =>
    cases ha
    exact faultsIn_block.bind fun _ => .ok _
  | pool =>
    cases ha
    exact faultsIn_pool
  | defaults =>
    cases ha
    exact faultsIn_required.bind fun _ => .ok _
  | start =>
    cases ha
    exact faultsIn_formation

/-- A text is refused for its form or by an action. -/
theorem parse_faultsIn (source text : String) :
    FaultsIn (fun e => e.OfAction ∨ e = .unfinished ∨ ∃ report, e = .malformed report)
      (Formation.parse source text).outcome := by
  rw [Formation.outcome_parse]
  refine .bind ?_ fun nodes => ?_
  · cases hrun : (grammar.run .start text).result with
    | ok nodes => exact .ok _
    | error refusal =>
      cases refusal with
      | malformed e => exact .error (.inr (.inr ⟨_, rfl⟩))
      | unfinished => exact .error (.inr (.inl rfl))
      | rejected e =>
        obtain ⟨id, action, _, _, _, bs, ha, -, he⟩ := rejected_of_run hrun
        exact .error (.inl (faultsIn_action ha ⟨bs⟩ e he))
  · split
    · exact .ok _
    · exact .error (.inl (.incompatible _))

/-! ## Resolving -/

/-- What a formation cannot be resolved for. -/
inductive Fault.OfResolving : Fault → Prop where
  | duplicateDeclaration (name : String) : OfResolving (.duplicateDeclaration name)
  | missingSequences (owner : Owner) (names missing : List String) :
      OfResolving (.missingSequences owner names missing)
  | cyclicInclude (chain : List String) : OfResolving (.cyclicInclude chain)

theorem expandInclude_faultsIn (owner : Owner) (table : Expansions) (values : List Value) :
    FaultsIn Fault.OfResolving (expandInclude owner table values).outcome := by
  unfold expandInclude
  split
  · exact .ok _
  · exact .error (.missingSequences _ _ _)

theorem expand_faultsIn (owner : Owner) (table : Expansions) (s : Sequence) :
    FaultsIn Fault.OfResolving (expand owner table s).outcome := by
  induction s with
  | nil => exact .ok _
  | cons p s ih =>
    rw [expand_cons]
    refine .journaled ?_ fun _ => .journaled ih fun _ => .ok _
    split
    · exact expandInclude_faultsIn _ _ _
    · exact .ok _

theorem visitAll_faultsIn {declared : List Declaration} {chain : List String}
    (h : ∀ name table, FaultsIn Fault.OfResolving (visit declared chain name table).outcome)
    (names : List String) (table : Expansions) :
    FaultsIn Fault.OfResolving (visitAll declared chain names table).outcome := by
  induction names generalizing table with
  | nil =>
    rw [visitAll]
    exact .ok _
  | cons name names ih =>
    rw [visitAll]
    exact .journaled (h name table) fun table => ih table

theorem visit_faultsIn (declared : List Declaration) (chain : List String) (name : String)
    (table : Expansions) :
    FaultsIn Fault.OfResolving (visit declared chain name table).outcome := by
  induction hn : openDeclarations declared chain using Nat.strongRecOn
    generalizing chain name table with
  | ind n ih =>
    by_cases hhas : Has table name
    · rw [visit_of_has hhas]
      exact .ok _
    by_cases hchain : name ∈ chain
    · rw [visit_of_mem hhas hchain]
      exact .error (.cyclicInclude _)
    cases hfind : declared.find? fun d => d.name == name with
    | none =>
      rw [visit_of_undeclared hchain (not_declares_of_find?_eq_none hfind)]
      exact .ok _
    | some d =>
      rw [visit_of_declared hhas hchain hfind]
      have hlt := openDeclarations_lt hchain hfind
      exact .journaled (visitAll_faultsIn (fun _ _ => ih _ (hn ▸ hlt) _ _ _ rfl) _ _) fun _ =>
        .journaled (expand_faultsIn _ _ _) fun _ => .ok _

theorem checkDistinct_faultsIn (declared : List Declaration) :
    FaultsIn (fun e => ∃ name, e = .duplicateDeclaration name) (checkDistinct declared) := by
  unfold checkDistinct
  generalize ([] : List String) = seen
  induction declared generalizing seen with
  | nil => exact .ok _
  | cons d declared ih =>
    rw [checkDistinct.go]
    split
    · exact .error ⟨_, rfl⟩
    · exact ih _

theorem expandOwned_faultsIn (table : Expansions) (owned : List (Owner × Sequence)) :
    FaultsIn Fault.OfResolving (expandOwned table owned).outcome := by
  induction owned with
  | nil => exact .ok _
  | cons o owned ih =>
    exact .journaled (.ok ()) fun _ => .journaled (expand_faultsIn _ _ _) fun _ =>
      .journaled ih fun _ => .ok _

theorem resolve_faultsIn (f : Formation) : FaultsIn Fault.OfResolving f.resolve.outcome :=
  have hdistinct : FaultsIn Fault.OfResolving (checkDistinct f.declarations) :=
    (checkDistinct_faultsIn _).imp fun _ h => h.choose_spec ▸ .duplicateDeclaration _
  .journaled (.journaled hdistinct fun _ => visitAll_faultsIn (visit_faultsIn _ _) _ _) fun _ =>
    .journaled (expandOwned_faultsIn _ _) fun _ => .ok _

end Fleet
