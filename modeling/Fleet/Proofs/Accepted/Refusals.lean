import Fleet.Proofs.Accepted.Documents
import Fleet.Proofs.Formation.Faults
/-!
What an action refuses a match with is what its text says, not what kinds of nodes it was given
(`refusedBy_of_body`). So what any rule rejects a text with is a semantic fault (`refuses_of_run`).
-/

namespace Fleet.Document
open Fleet.Peg Fleet.Text Layout Language

variable {cs rest : List Char} {items : List (Item Node)} {bs : List (String × Item Node)}

/-- What there is to refuse in a text whose form was recognized. -/
inductive Refuses : Fault → Prop where
  | tooLarge (digits : String) : Refuses (.invalidValue (.tooLarge digits))
  | wrongListeners (protocol : Protocol) (pool : String) :
      Refuses (.invalidValue (.wrongListeners protocol pool))
  | emptyFormation : Refuses .emptyFormation

theorem Refuses.isSemantic {e : Fault} (h : Refuses e) : e.isSemantic = true := by
  cases h <;> rfl

/-- Three rules alone refuse what they match. -/
inductive RefusedBy : Symbol → Fault → Prop where
  | integer (digits : String) : RefusedBy .integer (.invalidValue (.tooLarge digits))
  | pool (protocol : Protocol) (name : String) :
      RefusedBy .pool (.invalidValue (.wrongListeners protocol name))
  | start : RefusedBy .start .emptyFormation

theorem RefusedBy.refuses {id : Symbol} {e : Fault} (h : RefusedBy id e) : Refuses e := by
  cases h with
  | integer digits => exact .tooLarge digits
  | pool protocol name => exact .wrongListeners protocol name
  | start => exact .emptyFormation

/-- The captures of a match are of the kinds that the action asks for. -/
theorem refusedBy_of_body {id : Symbol} {action : Action} {e : Fault}
    (ha : (grammar.rule id).action = some action)
    (h : Reads grammar (grammar.rule id).body cs (.matched rest items bs))
    (he : action ⟨bs⟩ = .error e) : RefusedBy id e := by
  have hnever {α : Type} {action : Action} {good : α → Prop} {node : α → Node}
      {lang : α → Language} {body : Expr Symbol}
      (hm : Accepts grammar body (Makes action good node lang))
      (hr : Reads grammar body cs (.matched rest items bs)) (he : action ⟨bs⟩ = .error e) :
      RefusedBy id e :=
    absurd he (hm.not_refused hr e)
  cases id with
  | newline | quoted | value | flavor | steps | ports | endOfInput | sectionBreak => cases ha
  | key | singleQuoted | doubleQuoted =>
    cases ha
    cases he
  | integer =>
    cases ha
    simp only [Action.integer] at he
    split at he
    · cases he
    · cases he
      exact .integer _
  | integerList =>
    cases ha
    exact hnever (accepts_integer.makes_list (Accepts.literal ", ").skip
      (listNode_map (f := Node.integer) (fun _ => rfl) _ _)) h he
  | valueList =>
    cases ha
    exact hnever (accepts_value.makes_list (Accepts.literal ", ").skip
      (listNode_map Node.value?_ofValue _ _)) h he
  | pairList =>
    cases ha
    exact hnever (accepts_pair.makes_list accepts_newline.skip
      (listNode_map (f := Node.pair) (fun _ => rfl) _ _)) h he
  | declarationList =>
    cases ha
    exact hnever (accepts_declaration.makes_list accepts_newlines.skip
      (listNode_map (f := Node.declaration) (fun _ => rfl) _ _)) h he
  | serviceList =>
    cases ha
    exact hnever (accepts_service.makes_list accepts_newline.skip
      (listNode_map (f := Node.service) (fun _ => rfl) _ _)) h he
  | poolList =>
    cases ha
    exact hnever (accepts_pool.makes_list accepts_newlines.skip
      (listNode_map (f := Node.pool) (fun _ => rfl) _ _)) h he
  | boxList =>
    cases ha
    exact hnever (accepts_box.makes_list accepts_newlines.skip
      (listNode_map (f := Node.box) (fun _ => rfl) _ _)) h he
  | pair =>
    cases ha
    exact hnever makes_pair h he
  | vmSpec =>
    cases ha
    exact hnever makes_vmSpec h he
  | declaration =>
    cases ha
    exact hnever makes_declaration h he
  | loadBalancer =>
    cases ha
    exact hnever makes_loadBalancer h he
  | service =>
    cases ha
    exact hnever makes_service h he
  | box =>
    cases ha
    exact hnever makes_box h he
  | defaults =>
    cases ha
    exact hnever makes_defaults h he
  | pool =>
    cases ha
    obtain ⟨_, -, p, protocol, -, -, hpool⟩ := accepts_poolBody h
    rw [hpool] at he
    split at he
    · cases he
    · cases he
      exact .pool _ _
  | start =>
    cases ha
    obtain ⟨-, f, hf, -, hb⟩ := document_inv h
    rw [Action.formation_eq hf hb] at he
    split at he
    · cases he
      exact .start
    · cases he

theorem refuses_of_body {id : Symbol} {action : Action} {e : Fault}
    (ha : (grammar.rule id).action = some action)
    (h : Reads grammar (grammar.rule id).body cs (.matched rest items bs))
    (he : action ⟨bs⟩ = .error e) : Refuses e :=
  (refusedBy_of_body ha h he).refuses

/-- Whatever rule is matched against the text. -/
theorem refuses_of_run {id : Symbol} {text : String} {e : Fault}
    (h : (grammar.run id text).result = .error (.rejected e)) : Refuses e := by
  obtain ⟨id, action, _, _, _, bs, ha, hbody, he⟩ := rejected_of_run h
  exact refuses_of_body ha hbody he

end Fleet.Document
