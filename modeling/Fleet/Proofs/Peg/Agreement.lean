import Fleet.Peg.Runs
import Fleet.Peg.Semantics
/-!
When an answer of the matcher, a state and a cursor, says the same as a result that knows of
neither. The lemmas say how agreement goes through the steps by which one expression uses
another: states put after each other, scopes opened and closed, lookaheads, actions.
-/

namespace Fleet.Peg
open Fleet.Text

variable {ι ν ε : Type}

/-- What evaluation makes of a state: it stays as it is, but for what was noted on the way and the
bindings that were added. -/
structure State.Extends (s t : State ν ε) (bindings : List (String × Item ν)) : Prop where
  frames : t.frames = s.frames
  outer : t.outer = s.outer
  lookahead : t.lookahead = s.lookahead
  scope : t.scope.bindings = s.scope.bindings ++ bindings

namespace State
variable {s t u : State ν ε} {bs bs' : List (String × Item ν)}

theorem Extends.refl (s : State ν ε) : s.Extends s [] := ⟨rfl, rfl, rfl, by simp⟩

theorem Extends.trans (h : s.Extends t bs) (h' : t.Extends u bs') : s.Extends u (bs ++ bs') where
  frames := h'.frames.trans h.frames
  outer := h'.outer.trans h.outer
  lookahead := h'.lookahead.trans h.lookahead
  scope := by rw [h'.scope, h.scope, List.append_assoc]

theorem extends_record (s : State ν ε) (e : Failure) : s.Extends (s.record e) [] := by
  unfold record
  split <;> exact ⟨rfl, rfl, rfl, by simp⟩

@[simp] theorem rejection_record (s : State ν ε) (e : Failure) :
    (s.record e).rejection = s.rejection := by
  unfold record; split <;> rfl

@[simp] theorem rejection_leave (s : State ν ε) : s.leave.rejection = s.rejection := rfl

@[simp] theorem rejection_closeScope (s : State ν ε) :
    s.closeScope.rejection = s.rejection := by
  unfold closeScope; split <;> rfl

/-- Forgetting the bindings since a state gives back that state's scope. -/
theorem Extends.reset_scope (h : s.Extends t bs) : t.scope.reset s.scope.mark = s.scope :=
  Captures.reset_of_prefix ⟨bs, h.scope.symm⟩

theorem Extends.reset (h : s.Extends t bs) : s.Extends (t.resetScope s.scope.mark) [] where
  frames := h.frames
  outer := h.outer
  lookahead := h.lookahead
  scope := by simp [resetScope, h.reset_scope]

theorem Extends.lookBack (h : s.lookAhead.Extends t bs) :
    s.Extends (t.lookBack s.scope.mark) [] where
  frames := h.frames
  outer := h.outer
  lookahead := by simp [State.lookBack, h.lookahead, lookAhead]
  scope := by
    have hs : t.scope.reset s.scope.mark = s.scope := h.reset_scope
    simp [State.lookBack, hs]

theorem Extends.clearRejection (h : s.Extends t bs) : s.Extends t.clearRejection bs :=
  ⟨h.frames, h.outer, h.lookahead, h.scope⟩

theorem Extends.capture (h : s.Extends t bs) (name : String) (items : List (Item ν)) :
    s.Extends (t.capture name items) (bs ++ items.map (name, ·)) :=
  ⟨h.frames, h.outer, h.lookahead, by simp [State.capture, Captures.bindAll, h.scope]⟩

theorem Extends.reject (h : s.Extends t bs) (rule : String) (line : Nat) (error : ε) :
    s.Extends (t.reject rule line error) bs :=
  ⟨h.frames, h.outer, h.lookahead, h.scope⟩

theorem Extends.leave {name : String} {p : Position} (h : (s.enter name p).Extends t bs) :
    s.Extends t.leave bs where
  frames := by simp [State.leave, h.frames, enter]
  outer := h.outer
  lookahead := h.lookahead
  scope := h.scope

theorem Extends.closeScope {name : String} {p : Position}
    (h : (s.enter name p).openScope.Extends t bs) :
    t.scope = ⟨bs⟩ ∧ s.Extends t.closeScope.leave [] := by
  have ho : t.outer = s.scope :: s.outer := h.outer
  have hs : t.scope.bindings = [] ++ bs := h.scope
  refine ⟨congrArg Captures.mk hs, ?_⟩
  constructor
  · simp [State.closeScope, ho, State.leave, h.frames, openScope, enter]
  · simp [State.closeScope, ho, State.leave]
  · simp [State.closeScope, ho, State.leave, h.lookahead, openScope, enter]
  · simp [State.closeScope, ho, State.leave]

end State

/-- The answer and the result say the same: what was consumed, what was yielded and what was bound
by a match, and nothing pending after anything but an abort. -/
inductive Agrees (k : Cursor) (s : State ν ε) : Result ν → Outcome ν × State ν ε → Prop where
  | matched {l : Cursor} {cs : List Char} {items : List (Item ν)}
      {bs : List (String × Item ν)} {t : State ν ε} (hk : k.Reaches l) (hl : l.rest = cs)
      (ht : s.Extends t bs) (hr : s.rejection = none → t.rejection = none) :
      Agrees k s (.matched cs items bs) (.matched l items, t)
  | failed {e : Failure} {bs : List (String × Item ν)} {t : State ν ε} (ht : s.Extends t bs)
      (hr : s.rejection = none → t.rejection = none) : Agrees k s .failed (.failed e, t)
  | aborted {e : Failure} {bs : List (String × Item ν)} {t : State ν ε} (ht : s.Extends t bs) :
      Agrees k s .aborted (.aborted e, t)

/-- Where there is no match, the scope is as it was. -/
def KeepsScope (s : State ν ε) (a : Outcome ν × State ν ε) : Prop :=
  a.1.isMatch = false → a.2.scope = s.scope

namespace Agrees
variable {k l : Cursor} {s t : State ν ε} {r : Result ν} {a : Outcome ν × State ν ε}
  {items : List (Item ν)} {bs : List (String × Item ν)}

theorem fail (k : Cursor) (s : State ν ε) (kind : Failure.Kind) (expected : String) :
    Agrees k s .failed (s.fail k kind expected) :=
  .failed (s.extends_record _) fun h => by simpa [State.fail] using h

theorem here (k : Cursor) (s : State ν ε) : Agrees k s (.matched k.rest [] []) (.matched k [], s) :=
  .matched (.refl k) rfl (.refl s) id

/-- What a match of an earlier part adds to the agreement on what comes after it. -/
theorem after (hk : k.Reaches l) (ht : s.Extends t bs)
    (hr : s.rejection = none → t.rejection = none) (h : Agrees l t r a) :
    Agrees k s (r.after items bs) (a.1.after items, a.2) := by
  cases h with
  | matched hl hc hu hru =>
    exact .matched (hk.trans hl) hc (ht.trans hu) fun h => hru (hr h)
  | failed hu hru => exact .failed (ht.trans hu) fun h => hru (hr h)
  | aborted hu => exact .aborted (ht.trans hu)

/-- Agreement from a later state that has no new bindings. -/
theorem of_extends (ht : s.Extends t []) (hr : s.rejection = none → t.rejection = none)
    (h : Agrees k t r a) : Agrees k s r a := by
  cases h with
  | matched hk hc hu hru => exact .matched hk hc (by simpa using ht.trans hu) fun h => hru (hr h)
  | failed hu hru => exact .failed (by simpa using ht.trans hu) fun h => hru (hr h)
  | aborted hu => exact .aborted (by simpa using ht.trans hu)

theorem unwind (h : Agrees k s r a) : Agrees k s r (State.unwind s.scope.mark a) := by
  cases h with
  | matched hk hc ht hr => exact .matched hk hc ht hr
  | failed ht hr => exact .failed ht.reset hr
  | aborted ht => exact .aborted ht.reset

/-- An answer says the same as one result at most. -/
theorem unique {r' : Result ν} (h : Agrees k s r a) (h' : Agrees k s r' a) : r = r' := by
  cases h with
  | matched _ hl ht _ =>
    cases h' with
    | matched _ hl' ht' _ =>
      have hbs := List.append_cancel_left (ht.scope.symm.trans ht'.scope)
      rw [← hl, ← hl', hbs]
  | failed => cases h'; rfl
  | aborted => cases h'; rfl

theorem of_matched (h : Agrees k s r (.matched l items, t)) :
    ∃ bs, r = .matched l.rest items bs ∧ k.Reaches l ∧ s.Extends t bs ∧
      (s.rejection = none → t.rejection = none) := by
  cases h with
  | matched hk hl ht hr =>
    subst hl
    exact ⟨_, rfl, hk, ht, hr⟩

theorem of_failed {f : Failure} (h : Agrees k s r (.failed f, t)) :
    r = .failed ∧ ∃ bs, s.Extends t bs ∧ (s.rejection = none → t.rejection = none) := by
  cases h with
  | failed ht hr => exact ⟨rfl, _, ht, hr⟩

theorem of_aborted {f : Failure} (h : Agrees k s r (.aborted f, t)) :
    r = .aborted ∧ ∃ bs, s.Extends t bs := by
  cases h with
  | aborted ht => exact ⟨rfl, _, ht⟩

theorem exists_extends (h : Agrees k s r a) : ∃ bs, s.Extends a.2 bs := by
  cases h with
  | matched _ _ ht | failed ht | aborted ht => exact ⟨_, ht⟩

theorem of_unmatched (h : Agrees k s r a) (ha : a.1.isMatch = false) :
    r = .failed ∨ r = .aborted := by
  cases h with
  | matched => cases ha
  | failed => exact .inl rfl
  | aborted => exact .inr rfl

theorem unmatched (h : Agrees k s r a) (hr : r = .failed ∨ r = .aborted) :
    a.1.isMatch = false := by
  cases h with
  | matched => simp at hr
  | failed | aborted => rfl

theorem not_failed (h : Agrees k s r a) (hr : r ≠ .failed) (f : Failure) : a.1 ≠ .failed f := by
  cases h with
  | matched | aborted => nofun
  | failed => exact absurd rfl hr

theorem ne_failed (h : Agrees k s r a) (ha : ∀ f, a.1 ≠ .failed f) : r ≠ .failed := by
  rintro rfl
  cases h
  exact ha _ rfl

theorem leave {name : String} {p : Position} {o : Outcome ν}
    (h : Agrees k (s.enter name p) r (o, t)) : Agrees k s r (o, t.leave) := by
  cases h with
  | matched hl hcs ht hr => exact .matched hl hcs ht.leave hr
  | failed ht hr => exact .failed ht.leave hr
  | aborted ht => exact .aborted ht.leave

/-- Without a match the bindings of an action rule are lost. -/
theorem closeScope {name : String} {p : Position} {o : Outcome ν}
    (h : Agrees k (s.enter name p).openScope r (o, t)) (ho : o.isMatch = false) :
    Agrees k s r (o, t.closeScope.leave) := by
  cases h with
  | matched => cases ho
  | failed ht hr => exact .failed ht.closeScope.2 fun h => by simp [hr h]
  | aborted ht => exact .aborted ht.closeScope.2

end Agrees

/-- Where nothing was matched, nothing is bound. -/
theorem Runs.extends_of_unmatched [BEq ι] {g : Grammar ι ν ε} {n : Nat} {e : Expr ι} {k : Cursor}
    {s t : State ν ε} {o : Outcome ν} {bs : List (String × Item ν)}
    (h : Runs g n (.expr e) k s (o, t)) (ho : o.isMatch = false) (ht : s.Extends t bs) :
    s.Extends t [] := by
  rw [← resetScope_of_eval h.eval_eq ho]
  exact ht.reset

end Fleet.Peg
