import Fleet.Peg.Equations
/-!
What the matcher can do, said once: `Runs` has a constructor for each way in which an expression, or
what it comes down to, is answered. It holds just where the functions of the matcher answer
(`runs_iff`), so what goes through every constructor is true of every answer.
-/

namespace Fleet.Peg
open Fleet.Text

variable {ι ν ε : Type}

/-- What the matcher can be at work on: the arguments of one of its five functions. -/
inductive Task (ι : Type) where
  | expr (e : Expr ι)
  | seq (items : List (Expr ι)) (committed : Bool)
  | choice (items : List (Expr ι)) (best : Option Failure)
  | many (e : Expr ι) (required : Bool)
  | rule (id : ι)

variable [BEq ι]

def Task.answer (g : Grammar ι ν ε) (n : Nat) :
    Task ι → Cursor → State ν ε → Option (Outcome ν × State ν ε)
  | .expr e, k, s => eval g n e k s
  | .seq items c, k, s => evalSeq g n items c k s
  | .choice items best, k, s => evalChoice g n items best k s
  | .many e q, k, s => evalMany g n e q k s
  | .rule id, k, s => evalRule g n id k s

/-- How `n` steps come to an answer. The names are those of `Reads`, which tells the same of a text
without a state. -/
inductive Runs (g : Grammar ι ν ε) :
    Nat → Task ι → Cursor → State ν ε → Outcome ν × State ν ε → Prop where
  | literal {n text k l s} (h : k.strip? text.toList = some l) :
      Runs g (n + 1) (.expr (.literal text)) k s (.matched l [.text text], s)
  | literal_failed {n text k s} (h : k.strip? text.toList = none) :
      Runs g (n + 1) (.expr (.literal text)) k s (s.fail k .literal (quote text))
  | oneOf {n cls k c l s} (h : k.next? = some (c, l)) (hc : cls.contains c = true) :
      Runs g (n + 1) (.expr (.oneOf cls)) k s (.matched l [.text c.toString], s)
  | oneOf_failed {n cls k s} (h : k.next?.any (cls.contains ·.1) = false) :
      Runs g (n + 1) (.expr (.oneOf cls)) k s (s.fail k .charClass cls.label)
  | any {n k c l s} (h : k.next? = some (c, l)) :
      Runs g (n + 1) (.expr .any) k s (.matched l [.text c.toString], s)
  | any_failed {n k s} (h : k.next? = none) :
      Runs g (n + 1) (.expr .any) k s (s.fail k .endOfText "any character")
  | commit {n k s} : Runs g (n + 1) (.expr .commit) k s (.matched k [], s)
  | optional {n e k s a} (h : Runs g n (.expr e) k s a) (ha : ∀ f, a.1 ≠ .failed f) :
      Runs g (n + 1) (.expr (.optional e)) k s a
  | optional_absent {n e k s f t} (h : Runs g n (.expr e) k s (.failed f, t)) :
      Runs g (n + 1) (.expr (.optional e)) k s (.matched k [], t)
  | not_failed {n e k s l items t} (h : Runs g n (.expr e) k s.lookAhead (.matched l items, t)) :
      Runs g (n + 1) (.expr (.not e)) k s
        ((t.lookBack s.scope.mark).fail k .lookahead (g.describe (.not e)))
  | not {n e k s o t} (h : Runs g n (.expr e) k s.lookAhead (o, t)) (ho : o.isMatch = false) :
      Runs g (n + 1) (.expr (.not e)) k s
        (.matched k [], (t.lookBack s.scope.mark).clearRejection)
  | ignore {n e k s l items t} (h : Runs g n (.expr e) k s (.matched l items, t)) :
      Runs g (n + 1) (.expr (.ignore e)) k s (.matched l [], t)
  | ignore_unmatched {n e k s a} (h : Runs g n (.expr e) k s a) (ha : a.1.isMatch = false) :
      Runs g (n + 1) (.expr (.ignore e)) k s a
  | capture {n name e k s l items t} (h : Runs g n (.expr e) k s (.matched l items, t)) :
      Runs g (n + 1) (.expr (.capture name e)) k s (.matched l items, t.capture name items)
  | capture_unmatched {n name e k s a} (h : Runs g n (.expr e) k s a) (ha : a.1.isMatch = false) :
      Runs g (n + 1) (.expr (.capture name e)) k s a
  | seq {n items k s a} (h : Runs g n (.seq items false) k s a) :
      Runs g (n + 1) (.expr (.seq items)) k s (State.unwind s.scope.mark a)
  | choice {n items k s a} (h : Runs g n (.choice items none) k s a) :
      Runs g (n + 1) (.expr (.choice items)) k s (State.unwind s.scope.mark a)
  | oneOrMore {n e k s a} (h : Runs g n (.many e true) k s a) :
      Runs g (n + 1) (.expr (.oneOrMore e)) k s (State.unwind s.scope.mark a)
  | zeroOrMore {n e k s a} (h : Runs g n (.many e false) k s a) :
      Runs g (n + 1) (.expr (.zeroOrMore e)) k s (State.unwind s.scope.mark a)
  | rule {n id k s a} (h : Runs g n (.rule id) k s a) :
      Runs g (n + 1) (.expr (.rule id)) k s (State.unwind s.scope.mark a)
  | seq_nil {n c k s} : Runs g (n + 1) (.seq [] c) k s (.matched k [], s)
  | seq_commit {n items c k s a} (h : Runs g n (.seq items true) k s a) :
      Runs g (n + 1) (.seq (.commit :: items) c) k s a
  | seq_cons {n e items c k s l first t a} (hc : e ≠ .commit)
      (h : Runs g n (.expr e) k s (.matched l first, t)) (hr : Runs g n (.seq items c) l t a) :
      Runs g (n + 1) (.seq (e :: items) c) k s (a.1.after first, a.2)
  | seq_failed {n e items k s f t} (hc : e ≠ .commit)
      (h : Runs g n (.expr e) k s (.failed f, t)) :
      Runs g (n + 1) (.seq (e :: items) false) k s (.failed f, t)
  | seq_committed {n e items k s f t} (hc : e ≠ .commit)
      (h : Runs g n (.expr e) k s (.failed f, t)) :
      Runs g (n + 1) (.seq (e :: items) true) k s (.aborted (t.anchored f), t)
  | seq_aborted {n e items c k s f t} (hc : e ≠ .commit)
      (h : Runs g n (.expr e) k s (.aborted f, t)) :
      Runs g (n + 1) (.seq (e :: items) c) k s (.aborted f, t)
  | choice_none {n best k s} :
      Runs g (n + 1) (.choice [] best) k s
        (.failed (best.getD (.single s.path k .alternatives "an alternative")), s)
  | choice_taken {n e items best k s a} (h : Runs g n (.expr e) k s a)
      (ha : ∀ f, a.1 ≠ .failed f) : Runs g (n + 1) (.choice (e :: items) best) k s a
  | choice_next {n e items best k s f t a} (h : Runs g n (.expr e) k s (.failed f, t))
      (hr : Runs g n (.choice items (some (Failure.join best f))) k t a) :
      Runs g (n + 1) (.choice (e :: items) best) k s a
  | many_more {n e q k s l first t a} (h : Runs g n (.expr e) k s (.matched l first, t))
      (hl : k.offset < l.offset) (hr : Runs g n (.many e false) l t a) :
      Runs g (n + 1) (.many e q) k s (a.1.after first, a.2)
  | many_idle {n e q k s l first t} (h : Runs g n (.expr e) k s (.matched l first, t))
      (hl : ¬ k.offset < l.offset) : Runs g (n + 1) (.many e q) k s (.matched l first, t)
  | many_done {n e k s f t} (h : Runs g n (.expr e) k s (.failed f, t)) :
      Runs g (n + 1) (.many e false) k s (.matched k [], t)
  | many_missing {n e k s f t} (h : Runs g n (.expr e) k s (.failed f, t)) :
      Runs g (n + 1) (.many e true) k s (.failed f, t)
  | many_aborted {n e q k s f t} (h : Runs g n (.expr e) k s (.aborted f, t)) :
      Runs g (n + 1) (.many e q) k s (.aborted f, t)
  | transparent {n id k s o t} (ha : (g.rule id).action = none)
      (h : Runs g n (.expr (g.rule id).body) k (s.enter (g.rule id).name k.pos) (o, t)) :
      Runs g (n + 1) (.rule id) k s (o, t.leave)
  | acting {n id action k s l items t nodes} (ha : (g.rule id).action = some action)
      (h : Runs g n (.expr (g.rule id).body) k (s.enter (g.rule id).name k.pos).openScope
        (.matched l items, t)) (hn : action t.scope = .ok nodes) :
      Runs g (n + 1) (.rule id) k s (.matched l (nodes.map .node), t.closeScope.leave)
  | acting_rejected {n id action k s l items t error} (ha : (g.rule id).action = some action)
      (h : Runs g n (.expr (g.rule id).body) k (s.enter (g.rule id).name k.pos).openScope
        (.matched l items, t)) (he : action t.scope = .error error) :
      Runs g (n + 1) (.rule id) k s
        (.aborted (.single [(g.rule id).name] k .action s!"a valid {(g.rule id).name}"),
          t.closeScope.leave.reject (g.rule id).name k.pos.line error)
  | acting_unmatched {n id action k s o t} (ha : (g.rule id).action = some action)
      (h : Runs g n (.expr (g.rule id).body) k (s.enter (g.rule id).name k.pos).openScope (o, t))
      (ho : o.isMatch = false) : Runs g (n + 1) (.rule id) k s (o, t.closeScope.leave)

variable {g : Grammar ι ν ε} {n m : Nat} {k : Cursor} {s t : State ν ε}
  {a : Outcome ν × State ν ε}

/-! ## Every answer is a run -/

section Runs
variable (ih : ∀ (t : Task ι) (k : Cursor) (s : State ν ε) (a : Outcome ν × State ν ε),
  t.answer g n k s = some a → Runs g n t k s a)
include ih

theorem runs_expr_succ (e : Expr ι) (h : eval g (n + 1) e k s = some a) :
    Runs g (n + 1) (.expr e) k s a := by
  cases e with
  | literal text =>
    rw [eval_literal] at h
    cases h
    cases hl : k.strip? text.toList with
    | some l => exact .literal hl
    | none => exact .literal_failed hl
  | oneOf cls =>
    rw [eval_oneOf] at h
    cases h
    cases hl : k.next? with
    | none => exact .oneOf_failed (by simp [hl])
    | some p =>
      obtain ⟨c, l⟩ := p
      dsimp only
      split
      · next hc => exact .oneOf hl hc
      · next hc => exact .oneOf_failed (by simpa [hl] using hc)
  | any =>
    rw [eval_any] at h
    cases h
    cases hl : k.next? with
    | none => exact .any_failed hl
    | some p => exact .any hl
  | commit =>
    rw [eval] at h
    cases h
    exact .commit
  | optional e =>
    rw [eval_optional] at h
    obtain ⟨⟨o, t⟩, he, rfl⟩ := Option.map_eq_some_iff.1 h
    cases o with
    | failed => exact .optional_absent (ih (.expr e) _ _ _ he)
    | matched | aborted => exact .optional (ih (.expr e) _ _ _ he) (by simp)
  | not e =>
    rw [eval_not] at h
    obtain ⟨⟨o, t⟩, he, rfl⟩ := Option.map_eq_some_iff.1 h
    cases o with
    | matched => exact .not_failed (ih (.expr e) _ _ _ he)
    | failed | aborted => exact .not (ih (.expr e) _ _ _ he) rfl
  | ignore e =>
    rw [eval_ignore] at h
    obtain ⟨⟨o, t⟩, he, rfl⟩ := Option.map_eq_some_iff.1 h
    cases o with
    | matched => exact .ignore (ih (.expr e) _ _ _ he)
    | failed | aborted => exact .ignore_unmatched (ih (.expr e) _ _ _ he) rfl
  | capture name e =>
    rw [eval_capture] at h
    obtain ⟨⟨o, t⟩, he, rfl⟩ := Option.map_eq_some_iff.1 h
    cases o with
    | matched => exact .capture (ih (.expr e) _ _ _ he)
    | failed | aborted => exact .capture_unmatched (ih (.expr e) _ _ _ he) rfl
  | seq items =>
    rw [eval_seq] at h
    obtain ⟨b, hb, rfl⟩ := Option.map_eq_some_iff.1 h
    exact .seq (ih (.seq items false) _ _ _ hb)
  | choice items =>
    rw [eval_choice] at h
    obtain ⟨b, hb, rfl⟩ := Option.map_eq_some_iff.1 h
    exact .choice (ih (.choice items none) _ _ _ hb)
  | oneOrMore e =>
    rw [eval_oneOrMore] at h
    obtain ⟨b, hb, rfl⟩ := Option.map_eq_some_iff.1 h
    exact .oneOrMore (ih (.many e true) _ _ _ hb)
  | zeroOrMore e =>
    rw [eval_zeroOrMore] at h
    obtain ⟨b, hb, rfl⟩ := Option.map_eq_some_iff.1 h
    exact .zeroOrMore (ih (.many e false) _ _ _ hb)
  | rule id =>
    rw [eval_rule] at h
    obtain ⟨b, hb, rfl⟩ := Option.map_eq_some_iff.1 h
    exact .rule (ih (.rule id) _ _ _ hb)

theorem runs_seq_succ (items : List (Expr ι)) (c : Bool)
    (h : evalSeq g (n + 1) items c k s = some a) : Runs g (n + 1) (.seq items c) k s a := by
  cases items with
  | nil =>
    rw [evalSeq] at h
    cases h
    exact .seq_nil
  | cons e items =>
    by_cases hc : e = .commit
    · subst hc
      rw [evalSeq] at h
      exact .seq_commit (ih (.seq items true) _ _ _ h)
    · rw [evalSeq_cons _ _ hc] at h
      cases he : eval g n e k s with
      | none => simp [he] at h
      | some b =>
        obtain ⟨o, t⟩ := b
        have hb := ih (.expr e) _ _ _ he
        simp only [he] at h
        cases o with
        | matched =>
          obtain ⟨d, hd, rfl⟩ := Option.map_eq_some_iff.1 h
          exact .seq_cons hc hb (ih (.seq items c) _ _ _ hd)
        | aborted => cases h; exact .seq_aborted hc hb
        | failed =>
          cases h
          cases c with
          | false => exact .seq_failed hc hb
          | true => exact .seq_committed hc hb

theorem runs_choice_succ (items : List (Expr ι)) (best : Option Failure)
    (h : evalChoice g (n + 1) items best k s = some a) :
    Runs g (n + 1) (.choice items best) k s a := by
  cases items with
  | nil =>
    rw [evalChoice] at h
    cases h
    exact .choice_none
  | cons e items =>
    rw [evalChoice] at h
    cases he : eval g n e k s with
    | none => simp [he] at h
    | some b =>
      obtain ⟨o, t⟩ := b
      have hb := ih (.expr e) _ _ _ he
      simp only [he] at h
      cases o with
      | matched | aborted => cases h; exact .choice_taken hb (by simp)
      | failed => exact .choice_next hb (ih (.choice items _) _ _ _ h)

theorem runs_many_succ (e : Expr ι) (q : Bool) (h : evalMany g (n + 1) e q k s = some a) :
    Runs g (n + 1) (.many e q) k s a := by
  rw [evalMany_succ] at h
  cases he : eval g n e k s with
  | none => simp [he] at h
  | some b =>
    obtain ⟨o, t⟩ := b
    have hb := ih (.expr e) _ _ _ he
    simp only [he] at h
    cases o with
    | matched =>
      dsimp only at h
      split at h
      · next hl =>
        obtain ⟨d, hd, rfl⟩ := Option.map_eq_some_iff.1 h
        exact .many_more hb hl (ih (.many e false) _ _ _ hd)
      · next hl =>
        cases h
        exact .many_idle hb hl
    | aborted => cases h; exact .many_aborted hb
    | failed =>
      cases h
      cases q with
      | false => exact .many_done hb
      | true => exact .many_missing hb

theorem runs_rule_succ (id : ι) (h : evalRule g (n + 1) id k s = some a) :
    Runs g (n + 1) (.rule id) k s a := by
  rw [evalRule] at h
  cases hact : (g.rule id).action with
  | none =>
    simp only [hact, Option.map_eq_some_iff] at h
    obtain ⟨b, hb, rfl⟩ := h
    exact .transparent hact (ih (.expr _) _ _ _ hb)
  | some action =>
    simp only [hact, Option.map_eq_some_iff] at h
    obtain ⟨⟨o, t⟩, hb, rfl⟩ := h
    have hb := ih (.expr _) _ _ _ hb
    cases o with
    | failed | aborted => exact .acting_unmatched hact hb rfl
    | matched =>
      dsimp only
      cases hn : action t.scope with
      | ok nodes => exact .acting hact hb hn
      | error error => exact .acting_rejected hact hb hn

end Runs

theorem runs_of_answer {n : Nat} {t : Task ι} {k : Cursor} {s : State ν ε}
    {a : Outcome ν × State ν ε} (h : t.answer g n k s = some a) : Runs g n t k s a := by
  induction n generalizing t k s a with
  | zero => cases t <;> simp [Task.answer, eval, evalSeq, evalChoice, evalMany, evalRule] at h
  | succ n ih =>
    replace ih := fun t k s a => @ih t k s a
    cases t with
    | expr e => exact runs_expr_succ ih e h
    | seq items c => exact runs_seq_succ ih items c h
    | choice items best => exact runs_choice_succ ih items best h
    | many e q => exact runs_many_succ ih e q h
    | rule id => exact runs_rule_succ ih id h

/-! ## Every run is an answer -/

theorem Runs.answer {t : Task ι} (h : Runs g n t k s a) : t.answer g n k s = some a := by
  induction h with
  | literal h | literal_failed h => simp [Task.answer, eval_literal, h]
  | oneOf h hc => simp [Task.answer, eval_oneOf, h, hc]
  | @oneOf_failed n cls k s h =>
    rw [Task.answer, eval_oneOf]
    cases hl : k.next? with
    | none => rfl
    | some p =>
      have hc : cls.contains p.1 = false := by simpa [hl] using h
      simp [hc]
  | any h | any_failed h => simp [Task.answer, eval_any, h]
  | commit => simp [Task.answer, eval, State.unwind]
  | @optional _ _ _ _ a _ ha ih =>
    obtain ⟨o, t⟩ := a
    simp only [Task.answer, eval_optional] at ih ⊢
    cases o with
    | failed f => exact absurd rfl (ha f)
    | matched | aborted => simp [ih]
  | optional_absent _ ih =>
    simp only [Task.answer, eval_optional] at ih ⊢
    simp [ih]
  | not_failed _ ih =>
    simp only [Task.answer, eval_not] at ih ⊢
    simp [ih]
  | @not _ _ _ _ o _ _ ho ih =>
    simp only [Task.answer, eval_not] at ih ⊢
    cases o with
    | matched => cases ho
    | failed | aborted => simp [ih]
  | ignore _ ih =>
    simp only [Task.answer, eval_ignore] at ih ⊢
    simp [ih]
  | @ignore_unmatched _ _ _ _ a _ ha ih =>
    obtain ⟨o, t⟩ := a
    simp only [Task.answer, eval_ignore] at ih ⊢
    cases o with
    | matched => cases ha
    | failed | aborted => simp [ih]
  | capture _ ih =>
    simp only [Task.answer, eval_capture] at ih ⊢
    simp [ih]
  | @capture_unmatched _ _ _ _ _ a _ ha ih =>
    obtain ⟨o, t⟩ := a
    simp only [Task.answer, eval_capture] at ih ⊢
    cases o with
    | matched => cases ha
    | failed | aborted => simp [ih]
  | seq _ ih | choice _ ih | oneOrMore _ ih | zeroOrMore _ ih | rule _ ih =>
    exact congrArg (Option.map (State.unwind _)) ih
  | seq_nil => rw [Task.answer, evalSeq]
  | seq_commit _ ih => rwa [Task.answer, evalSeq]
  | seq_cons hc _ _ ih ihr =>
    simp only [Task.answer, evalSeq_cons _ _ hc] at ih ihr ⊢
    simp [ih, ihr]
  | seq_failed hc _ ih | seq_committed hc _ ih | seq_aborted hc _ ih =>
    simp only [Task.answer, evalSeq_cons _ _ hc] at ih ⊢
    simp [ih]
  | choice_none => rw [Task.answer, evalChoice]
  | @choice_taken _ _ _ _ _ _ a _ ha ih =>
    obtain ⟨o, t⟩ := a
    simp only [Task.answer, evalChoice] at ih ⊢
    cases o with
    | failed f => exact absurd rfl (ha f)
    | matched | aborted => simp [ih]
  | choice_next _ _ ih ihr =>
    simp only [Task.answer] at ih ihr ⊢
    simp [evalChoice, ih, ihr]
  | many_more _ hl _ ih ihr =>
    simp only [Task.answer, evalMany_succ] at ih ihr ⊢
    simp [ih, ihr, hl]
  | many_idle _ hl ih =>
    simp only [Task.answer, evalMany_succ] at ih ⊢
    simp [ih, hl]
  | many_done _ ih | many_missing _ ih | many_aborted _ ih =>
    simp only [Task.answer, evalMany_succ] at ih ⊢
    simp [ih]
  | transparent ha _ ih | acting ha _ hn ih | acting_rejected ha _ hn ih =>
    simp only [Task.answer] at ih ⊢
    simp [evalRule, *]
  | @acting_unmatched _ _ _ _ _ o _ ha _ ho ih =>
    simp only [Task.answer] at ih ⊢
    cases o with
    | matched => cases ho
    | failed | aborted => simp [evalRule, ha, ih]

theorem Runs.eval_eq {e : Expr ι} (h : Runs g n (.expr e) k s a) : eval g n e k s = some a :=
  h.answer

theorem runs_iff {t : Task ι} : Runs g n t k s a ↔ t.answer g n k s = some a :=
  ⟨Runs.answer, runs_of_answer⟩

end Fleet.Peg
