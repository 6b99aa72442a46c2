import Fleet.Proofs.Peg.Soundness
/-!
What each step of the matcher keeps, every run keeps (`Kept.eval`). A rejection that ends a run is
then one that some action has made of a match of its rule's body (`rejected_of_run`).
-/

namespace Fleet.Peg
open Fleet.Text

variable {ι ν ε : Type} {g : Grammar ι ν ε} {P : State ν ε → Prop}

/-- An action of the grammar refuses a match of its rule's body with the error. -/
def Rejects (g : Grammar ι ν ε) (error : ε) : Prop :=
  ∃ id action cs rest items bs, (g.rule id).action = some action ∧
    Reads g (g.rule id).body cs (.matched rest items bs) ∧ action ⟨bs⟩ = .error error

/-- Each step that the matcher takes from a state with the property leads to one. -/
structure Kept (g : Grammar ι ν ε) (P : State ν ε → Prop) : Prop where
  record : ∀ s e, P s → P (s.record e)
  resetScope : ∀ s mark, P s → P (s.resetScope mark)
  capture : ∀ s name items, P s → P (s.capture name items)
  lookAhead : ∀ s, P s → P s.lookAhead
  lookBack : ∀ s mark, P s → P (s.lookBack mark)
  clearRejection : ∀ s, P s → P s.clearRejection
  enter : ∀ s name start, P s → P (s.enter name start)
  leave : ∀ s, P s → P s.leave
  openScope : ∀ s, P s → P s.openScope
  closeScope : ∀ s, P s → P s.closeScope
  reject : ∀ s rule line error, Rejects g error → P s → P (s.reject rule line error)

theorem Kept.unwind (hP : Kept g P) (mark : Nat) {a : Outcome ν × State ν ε} (h : P a.2) :
    P (State.unwind mark a).2 := by
  obtain ⟨o, t⟩ := a
  cases o with
  | matched => exact h
  | failed | aborted => exact hP.resetScope t mark h

/-- A pending rejection is some action's. -/
theorem kept_rejection :
    Kept g fun s : State ν ε => ∀ error, s.rejection = some error → Rejects g error where
  record s e h := by unfold State.record; split <;> exact h
  resetScope _ _ h := h
  capture _ _ _ h := h
  lookAhead _ h := h
  lookBack _ _ h := h
  clearRejection _ _ := by nofun
  enter _ _ _ h := h
  leave _ h := h
  openScope _ h := h
  closeScope s h := by unfold State.closeScope; split <;> exact h
  reject _ _ _ error he _ := by
    intro _ hp
    cases hp
    exact he

/-- So are all that are kept for the journal. -/
theorem kept_rejections :
    Kept g fun s : State ν ε => ∀ r ∈ s.rejections, Rejects g r.error where
  record s e h := by unfold State.record; split <;> exact h
  resetScope _ _ h := h
  capture _ _ _ h := h
  lookAhead _ h := h
  lookBack _ _ h := h
  clearRejection _ h := h
  enter _ _ _ h := h
  leave _ h := h
  openScope _ h := h
  closeScope s h := by unfold State.closeScope; split <;> exact h
  reject s rule line error he h := by
    intro r hr
    rcases List.mem_cons.1 hr with rfl | hr
    · exact he
    · exact h r hr

variable [BEq ι] {n : Nat}

/-- What each step keeps, a run keeps. -/
theorem Kept.runs (hP : Kept g P) {task : Task ι} {k : Cursor} {s : State ν ε}
    {a : Outcome ν × State ν ε} (h : Runs g n task k s a) (hs : P s) : P a.2 := by
  induction h with
  | literal | oneOf | any | commit | seq_nil | choice_none => exact hs
  | literal_failed | oneOf_failed | any_failed => exact hP.record _ _ hs
  | optional _ _ ih | optional_absent _ ih | ignore _ ih | ignore_unmatched _ _ ih
  | capture_unmatched _ _ ih | seq_commit _ ih | seq_failed _ _ ih | seq_committed _ _ ih
  | seq_aborted _ _ ih | choice_taken _ _ ih | many_idle _ _ ih | many_done _ ih
  | many_missing _ ih | many_aborted _ ih => exact ih hs
  | seq_cons _ _ _ ih ihr | choice_next _ _ ih ihr | many_more _ _ _ ih ihr => exact ihr (ih hs)
  | seq _ ih | choice _ ih | oneOrMore _ ih | zeroOrMore _ ih | rule _ ih =>
    exact hP.unwind _ (ih hs)
  | capture _ ih => exact hP.capture _ _ _ (ih hs)
  | not_failed _ ih => exact hP.record _ _ (hP.lookBack _ _ (ih (hP.lookAhead _ hs)))
  | not _ _ ih => exact hP.clearRejection _ (hP.lookBack _ _ (ih (hP.lookAhead _ hs)))
  | transparent _ _ ih => exact hP.leave _ (ih (hP.enter _ _ _ hs))
  | acting _ _ _ ih | acting_unmatched _ _ _ ih =>
    exact hP.leave _ (hP.closeScope _ (ih (hP.openScope _ (hP.enter _ _ _ hs))))
  | @acting_rejected _ id action _ _ _ _ _ error hact h he ih =>
    have haround := hP.leave _ (hP.closeScope _ (ih (hP.openScope _ (hP.enter _ _ _ hs))))
    obtain ⟨_, hr, ha⟩ := h.sound
    obtain ⟨bs, rfl, -, ht, -⟩ := ha.of_matched
    obtain ⟨hscope, -⟩ := ht.closeScope
    rw [hscope] at he
    exact hP.reject _ _ _ error ⟨id, action, _, _, _, _, hact, hr, he⟩ haround

theorem Kept.eval (hP : Kept g P) {e : Expr ι} {k : Cursor} {s t : State ν ε} {o : Outcome ν}
    (hs : P s) (h : eval g n e k s = some (o, t)) : P t :=
  hP.runs (runs_of_answer (t := .expr e) h) hs

/-- An action has made the rejection that a run ends with. -/
theorem rejected_of_run {id : ι} {text : String} {error : ε}
    (h : (g.run id text).result = .error (.rejected error)) : Rejects g error := by
  unfold Grammar.run at h
  simp only at h
  split at h
  · cases h
  · next o s hev =>
    have hkept := kept_rejection.eval (by nofun) hev
    simp only [conclude] at h
    split at h
    · next hr =>
      cases h
      exact hkept error hr
    · split at h <;> cases h
    all_goals cases h

theorem rejects_of_mem_run {id : ι} {text : String} {r : Rejection ε}
    (h : r ∈ (g.run id text).rejections) : Rejects g r.error := by
  unfold Grammar.run at h
  simp only at h
  split at h
  · cases h
  · next o s hev =>
    exact kept_rejections.eval (by nofun) hev r (List.mem_reverse.1 h)

end Fleet.Peg
