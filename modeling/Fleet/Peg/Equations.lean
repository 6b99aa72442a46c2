import Fleet.Peg.Matcher
/-!
One step of the matcher, construct by construct. Where nothing is captured before a failure, or
what was is already forgotten, the unwinding with which `eval` ends does nothing and is left out.
-/

namespace Fleet.Peg
open Fleet.Text

variable {ι ν ε : Type}

/-- How a rule that is being matched is called where it anchors a failure. -/
def Frame.anchor (f : Frame) : Anchor := ⟨f.name, f.start.line, f.start.column⟩

namespace State

theorem anchored_eq (s : State ν ε) (e : Failure) :
    s.anchored e = { e with anchor := e.anchor.or (s.frames.head?.map Frame.anchor) } := by
  obtain ⟨path, cursor, kind, expected, anchor⟩ := e
  unfold anchored
  cases anchor <;> cases s.frames <;> rfl

theorem furthest_closeScope (s : State ν ε) : s.closeScope.leave.furthest = s.furthest := by
  unfold closeScope; split <;> rfl

@[simp] theorem scope_record (s : State ν ε) (e : Failure) : (s.record e).scope = s.scope := by
  unfold record; split <;> rfl

@[simp] theorem path_record (s : State ν ε) (e : Failure) : (s.record e).path = s.path := by
  unfold record; split <;> rfl

/-- Nothing is forgotten where nothing was captured. -/
theorem resetScope_mark {s t : State ν ε} (h : t.scope = s.scope) :
    t.resetScope s.scope.mark = t := by
  rw [← h]
  simp [resetScope, Captures.reset, Captures.mark]

/-- To forget the same once more changes nothing. -/
theorem resetScope_resetScope (s : State ν ε) (mark : Nat) :
    (s.resetScope mark).resetScope mark = s.resetScope mark := by
  simp [resetScope, Captures.reset, List.take_take]

@[simp] theorem fst_unwind (mark : Nat) (a : Outcome ν × State ν ε) :
    (unwind mark a).1 = a.1 := by
  obtain ⟨_ | _ | _, t⟩ := a <;> rfl

/-- A match is not unwound. -/
theorem eq_matched_of_unwind {mark : Nat} {a : Outcome ν × State ν ε} {l : Cursor}
    {items : List (Item ν)} {t : State ν ε} (h : unwind mark a = (.matched l items, t)) :
    a = (.matched l items, t) := by
  obtain ⟨o, u⟩ := a
  cases o with
  | matched => exact h
  | failed | aborted => cases h

theorem unwind_fail {s t : State ν ε} (h : t.resetScope s.scope.mark = t) (k : Cursor)
    (kind : Failure.Kind) (expected : String) :
    unwind s.scope.mark (t.fail k kind expected) = t.fail k kind expected := by
  have hscope := congrArg State.scope h
  simp only [fail, unwind, record]
  split
  · simp only [resetScope] at hscope ⊢
    rw [hscope]
  · rw [h]

theorem unwind_fail_self (s : State ν ε) (k : Cursor) (kind : Failure.Kind) (expected : String) :
    unwind s.scope.mark (s.fail k kind expected) = s.fail k kind expected :=
  unwind_fail (resetScope_mark rfl) k kind expected

end State

variable [BEq ι] (g : Grammar ι ν ε) (n : Nat) (e : Expr ι) (k : Cursor) (s : State ν ε)

/-- What `eval` leaves behind a failure is unwound. -/
theorem resetScope_of_eval {g : Grammar ι ν ε} {n : Nat} {e : Expr ι} {k : Cursor}
    {s t : State ν ε} {o : Outcome ν} (h : eval g n e k s = some (o, t))
    (ho : o.isMatch = false) : t.resetScope s.scope.mark = t := by
  cases n with
  | zero => simp [eval] at h
  | succ n =>
    unfold eval at h
    obtain ⟨⟨o', u⟩, -, hu⟩ := Option.map_eq_some_iff.1 h
    cases o' with
    | matched =>
      cases hu
      cases ho
    | failed | aborted =>
      cases hu
      exact u.resetScope_resetScope _

theorem eval_literal (word : String) :
    eval g (n + 1) (.literal word) k s = some (
      match k.strip? word.toList with
      | some l => (.matched l [.text word], s)
      | none => s.fail k .literal (quote word)) := by
  change Option.map (State.unwind s.scope.mark) (match k.strip? word.toList with
    | some l => some (.matched l [.text word], s)
    | none => some (s.fail k .literal (quote word))) = _
  cases k.strip? word.toList with
  | some l => rfl
  | none => exact congrArg some (s.unwind_fail_self k .literal (quote word))

theorem eval_oneOf (cls : CharClass) :
    eval g (n + 1) (.oneOf cls) k s = some (
      match k.next? with
      | some (c, l) =>
        if cls.contains c then (.matched l [.text c.toString], s)
        else s.fail k .charClass cls.label
      | none => s.fail k .charClass cls.label) := by
  have hfail := congrArg some (s.unwind_fail_self k .charClass cls.label)
  change Option.map (State.unwind s.scope.mark) (match k.next? with
    | some (c, l) =>
      if cls.contains c then some (.matched l [.text c.toString], s)
      else some (s.fail k .charClass cls.label)
    | none => some (s.fail k .charClass cls.label)) = _
  cases k.next? with
  | none => exact hfail
  | some c =>
    dsimp only
    split
    · rfl
    · exact hfail

theorem eval_any :
    eval g (n + 1) .any k s = some (
      match k.next? with
      | some (c, l) => (.matched l [.text c.toString], s)
      | none => s.fail k .endOfText "any character") := by
  change Option.map (State.unwind s.scope.mark) (match k.next? with
    | some (c, l) => some (.matched l [.text c.toString], s)
    | none => some (s.fail k .endOfText "any character")) = _
  cases k.next? with
  | some c => rfl
  | none => exact congrArg some (s.unwind_fail_self k .endOfText "any character")

theorem eval_optional :
    eval g (n + 1) (.optional e) k s = (eval g n e k s).map fun
      | (.failed _, t) => (.matched k [], t)
      | a => a := by
  rw [eval]
  cases h : eval g n e k s with
  | none => rfl
  | some a =>
    obtain ⟨_ | _ | _, t⟩ := a
    · rfl
    · rfl
    · simp [State.unwind, resetScope_of_eval h rfl]

theorem eval_ignore :
    eval g (n + 1) (.ignore e) k s = (eval g n e k s).map fun
      | (.matched l _, t) => (.matched l [], t)
      | a => a := by
  rw [eval]
  cases h : eval g n e k s with
  | none => rfl
  | some a =>
    obtain ⟨_ | _ | _, t⟩ := a
    · rfl
    · simp [State.unwind, resetScope_of_eval h rfl]
    · simp [State.unwind, resetScope_of_eval h rfl]

theorem eval_capture (name : String) :
    eval g (n + 1) (.capture name e) k s = (eval g n e k s).map fun
      | (.matched l items, t) => (.matched l items, t.capture name items)
      | a => a := by
  rw [eval]
  cases h : eval g n e k s with
  | none => rfl
  | some a =>
    obtain ⟨_ | _ | _, t⟩ := a
    · rfl
    · simp [State.unwind, resetScope_of_eval h rfl]
    · simp [State.unwind, resetScope_of_eval h rfl]

theorem eval_not :
    eval g (n + 1) (.not e) k s = (eval g n e k s.lookAhead).map fun
      | (.matched _ _, t) =>
        (t.lookBack s.scope.mark).fail k .lookahead (g.describe (.not e))
      | (_, t) => (.matched k [], (t.lookBack s.scope.mark).clearRejection) := by
  rw [eval]
  cases eval g n e k s.lookAhead with
  | none => rfl
  | some a =>
    obtain ⟨_ | _ | _, t⟩ := a
    · refine congrArg some (State.unwind_fail ?_ k _ _)
      simp [State.lookBack, State.resetScope, Captures.reset, List.take_take]
    · rfl
    · rfl

theorem eval_seq (items : List (Expr ι)) :
    eval g (n + 1) (.seq items) k s =
      (evalSeq g n items false k s).map (State.unwind s.scope.mark) := rfl

theorem eval_choice (items : List (Expr ι)) :
    eval g (n + 1) (.choice items) k s =
      (evalChoice g n items none k s).map (State.unwind s.scope.mark) := rfl

theorem eval_oneOrMore :
    eval g (n + 1) (.oneOrMore e) k s =
      (evalMany g n e true k s).map (State.unwind s.scope.mark) := rfl

theorem eval_zeroOrMore :
    eval g (n + 1) (.zeroOrMore e) k s =
      (evalMany g n e false k s).map (State.unwind s.scope.mark) := rfl

theorem eval_rule (id : ι) :
    eval g (n + 1) (.rule id) k s =
      (evalRule g n id k s).map (State.unwind s.scope.mark) := rfl

end Fleet.Peg
