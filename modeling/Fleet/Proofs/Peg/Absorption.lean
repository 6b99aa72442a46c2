import Fleet.Proofs.Peg.Furthest
import Fleet.Proofs.Peg.Invariants
/-!
Outside lookaheads a failure that comes out of an expression is already told by the furthest one
that was noted (`notes_of_eval`), so that to merge the two at the end adds nothing. An empty choice
is the exception: it fails without a note.
-/

namespace Fleet.Peg
open Fleet.Text

variable {ι ν ε : Type}

mutual

/-- No choice in the expression is empty. -/
def Expr.alwaysOffers : Expr ι → Bool
  | .choice items => !items.isEmpty && allOffer items
  | .seq items => allOffer items
  | .oneOrMore e | .zeroOrMore e | .optional e | .not e | .ignore e | .capture _ e => e.alwaysOffers
  | .literal _ | .oneOf _ | .any | .commit | .rule _ => true

def Expr.allOffer : List (Expr ι) → Bool
  | [] => true
  | e :: items => e.alwaysOffers && allOffer items

end

/-- No choice in the rule table is empty. -/
def Grammar.AlwaysOffers (g : Grammar ι ν ε) : Prop :=
  ∀ i, (g.rule i).body.alwaysOffers = true

/-- The furthest failure noted tells of the one given. -/
def State.Notes (s : State ν ε) (f : Failure) : Prop := ∃ m ∈ s.furthest, m.Covers f

namespace State.Notes
variable {s t : State ν ε} {e f : Failure}

theorem of_furthest (h : s.Notes f) (ht : t.furthest = s.furthest) : t.Notes f := by
  unfold State.Notes
  rwa [ht]

theorem record (h : s.Notes f) (e : Failure) : (s.record e).Notes f := by
  obtain ⟨m, hm, hcovers⟩ := h
  unfold State.record
  split
  · refine ⟨_, rfl, ?_⟩
    rw [Option.mem_def.1 hm]
    exact hcovers.furthest_left e
  · exact ⟨m, hm, hcovers⟩

/-- A failure is noted where it happens. -/
theorem of_record (h : s.lookahead = 0) (e : Failure) : (s.record e).Notes e := by
  unfold State.record
  rw [if_pos h]
  refine ⟨_, rfl, ?_⟩
  cases s.furthest with
  | none => exact .inr ⟨rfl, List.Subset.refl _⟩
  | some m => exact Failure.covers_furthest_right m e

theorem join {best : Option Failure} (hb : ∀ e ∈ best, s.Notes e) (hf : s.Notes f) :
    s.Notes (Failure.join best f) := by
  cases best with
  | none => exact hf
  | some e =>
    obtain ⟨m, hm, hcovers⟩ := hb e rfl
    obtain ⟨m', hm', hcovers'⟩ := hf
    obtain rfl := Option.mem_unique hm hm'
    exact ⟨m, hm, hcovers.furthest hcovers'⟩

end State.Notes

/-- What is noted stays noted. -/
theorem kept_notes (g : Grammar ι ν ε) (f : Failure) : Kept g fun s : State ν ε => s.Notes f where
  record _ e h := h.record e
  resetScope _ _ h := h
  capture _ _ _ h := h
  lookAhead _ h := h
  lookBack _ _ h := h
  clearRejection _ h := h
  enter _ _ _ h := h
  leave _ h := h
  openScope _ h := h
  closeScope s h := h.of_furthest s.furthest_closeScope
  reject _ _ _ _ _ h := h

variable [BEq ι] {g : Grammar ι ν ε} {n : Nat}

/-- No choice in the task is empty, and the failures before the alternatives are noted. -/
def Task.Offers (s : State ν ε) : Task ι → Prop
  | .expr e | .many e _ => e.alwaysOffers = true
  | .seq items _ => Expr.allOffer items = true
  | .choice items best =>
    Expr.allOffer items = true ∧ (items = [] → best.isSome) ∧ ∀ e ∈ best, s.Notes e
  | .rule _ => True

theorem State.Notes.unwind {a : Outcome ν × State ν ε} {f : Failure} (h : a.2.Notes f)
    (mark : Nat) : (State.unwind mark a).2.Notes f := by
  obtain ⟨_ | _ | _, t⟩ := a <;> exact h

theorem Outcome.eq_failed_of_after {o : Outcome ν} {first : List (Item ν)} {f : Failure}
    (h : o.after first = .failed f) : o = .failed f := by
  cases o with
  | failed => exact h
  | matched | aborted => cases h

/-- Where a task fails outside lookaheads, its failure is noted. -/
theorem Runs.notes (hg : g.AlwaysOffers) {task : Task ι} {k : Cursor} {s : State ν ε}
    {a : Outcome ν × State ν ε} (h : Runs g n task k s a) (ho : task.Offers s)
    (h0 : s.lookahead = 0) {f : Failure} (hf : a.1 = .failed f) : a.2.Notes f := by
  induction h generalizing f with
  | literal | oneOf | any | commit | optional_absent | not | ignore | capture | seq_nil
  | seq_committed | seq_aborted | many_idle | many_done | many_aborted | acting
  | acting_rejected => cases hf
  | literal_failed | oneOf_failed | any_failed =>
    cases hf
    exact .of_record h0 _
  | optional _ hne => exact absurd hf (hne f)
  | not_failed h =>
    cases hf
    obtain ⟨bs, ht⟩ := h.exists_extends
    exact .of_record (ht.lookBack.lookahead.trans h0) _
  | ignore_unmatched _ _ ih | capture_unmatched _ _ ih | many_missing _ ih => exact ih ho h0 hf
  | seq _ ih | oneOrMore _ ih | zeroOrMore _ ih => exact (ih ho h0 (by simpa using hf)).unwind _
  | rule _ ih => exact (ih trivial h0 (by simpa using hf)).unwind _
  | choice _ ih =>
    obtain ⟨hne, hall⟩ := Bool.and_eq_true_iff.1 ho
    refine (ih ⟨hall, ?_, by simp⟩ h0 (by simpa using hf)).unwind _
    intro hempty
    simp [hempty] at hne
  | seq_commit _ ih => exact ih (Bool.and_eq_true_iff.1 ho).2 h0 hf
  | seq_cons _ h _ _ ihr =>
    obtain ⟨bs, ht⟩ := h.exists_extends
    exact ihr (Bool.and_eq_true_iff.1 ho).2 (ht.lookahead.trans h0)
      (Outcome.eq_failed_of_after hf)
  | seq_failed _ _ ih => exact ih (Bool.and_eq_true_iff.1 ho).1 h0 hf
  | choice_none =>
    obtain ⟨-, hsome, hbest⟩ := ho
    obtain ⟨e, rfl⟩ := Option.isSome_iff_exists.1 (hsome rfl)
    cases hf
    exact hbest e rfl
  | choice_taken _ hne => exact absurd hf (hne f)
  | choice_next h _ ih ihr =>
    -- The furthest of the failures before stays noted while the others are tried.
    obtain ⟨hall, -, hbest⟩ := ho
    obtain ⟨hoffers, hall⟩ := Bool.and_eq_true_iff.1 hall
    obtain ⟨bs, ht⟩ := h.exists_extends
    refine ihr ⟨hall, fun _ => rfl, ?_⟩ (ht.lookahead.trans h0) hf
    rintro _ ⟨⟩
    exact .join (fun e he => (kept_notes g e).runs h (hbest e he)) (ih hoffers h0 rfl)
  | many_more h _ _ _ ihr =>
    obtain ⟨bs, ht⟩ := h.exists_extends
    exact ihr ho (ht.lookahead.trans h0) (Outcome.eq_failed_of_after hf)
  | transparent _ _ ih => exact ih (hg _) h0 hf
  | acting_unmatched _ _ _ ih => exact (ih (hg _) h0 hf).of_furthest (State.furthest_closeScope _)

theorem notes_of_eval (hg : g.AlwaysOffers) {e : Expr ι} (he : e.alwaysOffers = true) {k : Cursor}
    {s t : State ν ε} {f : Failure} (h0 : s.lookahead = 0)
    (h : eval g n e k s = some (.failed f, t)) : t.Notes f :=
  (runs_of_answer (t := .expr e) h).notes hg he h0 rfl

end Fleet.Peg
