import Fleet.Proofs.Peg.Adequacy
import Fleet.Proofs.Peg.Termination
/-!
The step budget suffices wherever any number of steps does, left recursion or not
(`eval_of_budget`), and so wherever no rule is left-recursive (`eval_budget`). Whether there is an
answer does not depend on the state, so a rule that is answered in the fewest steps that do has not
been tried again before a character was consumed. What a run may still need is therefore measured by
the rules that remain to be tried, besides the text that is left and the size of the expression.
-/

namespace Fleet.Peg
open Fleet.Text

variable {ι ν ε : Type}

namespace Expr

theorem size_pos (e : Expr ι) : 0 < e.size := by
  cases e <;> simp [size]

theorem sizeAll_pos (es : List (Expr ι)) : 0 < sizeAll es := by
  cases es <;> simp [sizeAll]

end Expr

/-- Steps that are enough while `top` rules remain to be tried and `length` characters are left, of
`rules` rules and with `body` steps for the body of each. -/
def need (rules body length top : Nat) : Nat := length * ((rules + 1) * body) + top * body

/-- A consumed character pays for every rule, and for one body more. -/
theorem need_shorter (rules body top : Nat) {length length' : Nat} (h : length' < length) :
    need rules body length' rules + body ≤ need rules body length top := by
  have hm := Nat.mul_le_mul_right ((rules + 1) * body) (Nat.succ_le_of_lt h)
  have hl : need rules body length' rules + body = (length' + 1) * ((rules + 1) * body) := by
    simp only [need, Nat.succ_mul]
    omega
  rw [hl]
  exact Nat.le_trans hm (Nat.le_add_right _ _)

namespace Grammar

theorem le_foldl_max (ns : List Nat) (m : Nat) :
    m ≤ ns.foldl max m ∧ ∀ n ∈ ns, n ≤ ns.foldl max m := by
  induction ns generalizing m with
  | nil => simp
  | cons n ns ih =>
    obtain ⟨hm, hns⟩ := ih (max m n)
    simp only [List.foldl_cons, List.mem_cons, forall_eq_or_imp]
    exact ⟨by omega, by omega, hns⟩

theorem size_le_bodyBudget (g : Grammar ι ν ε) (i : ι) :
    2 * (g.rule i).body.size + 2 ≤ g.bodyBudget :=
  (le_foldl_max _ _).2 _ (List.mem_map_of_mem (g.mem_ids i))

theorem two_le_bodyBudget (g : Grammar ι ν ε) : 2 ≤ g.bodyBudget := (le_foldl_max _ _).1

end Grammar

variable [BEq ι] {g : Grammar ι ν ε} {n m : Nat}

/-- In the list are all rules that `m` steps answer before the text, whatever the state. -/
def HoldsAnswered (g : Grammar ι ν ε) (m : Nat) (cs : List Char) (remaining : List ι) : Prop :=
  ∀ i (k : Cursor) (s : State ν ε), k.rest = cs → (eval g m (.rule i) k s).isSome → i ∈ remaining

section HoldsAnswered
variable {cs : List Char} {remaining before after : List ι} {i : ι}

theorem eval_isSome_mono (hnm : n ≤ m) {e : Expr ι} {k : Cursor} {s : State ν ε}
    (h : (eval g n e k s).isSome) : (eval g m e k s).isSome := by
  obtain ⟨a, ha⟩ := Option.isSome_iff_exists.1 h
  exact Option.isSome_iff_exists.2 ⟨a, eval_mono hnm ha⟩

theorem holdsAnswered_ids (g : Grammar ι ν ε) (m : Nat) (cs : List Char) :
    HoldsAnswered g m cs g.ids := fun i _ _ _ _ => g.mem_ids i

theorem HoldsAnswered.mono (h : HoldsAnswered g m cs remaining) (hnm : n ≤ m) :
    HoldsAnswered g n cs remaining :=
  fun i k s hk ha => h i k s hk (eval_isSome_mono hnm ha)

/-- A rule that the steps do not answer need not be held. -/
theorem HoldsAnswered.drop (h : HoldsAnswered g m cs (before ++ i :: after))
    (hi : ∀ (k : Cursor) (s : State ν ε), k.rest = cs → ¬ (eval g m (.rule i) k s).isSome) :
    HoldsAnswered g m cs (before ++ after) := by
  intro j k s hk ha
  have hmem := h j k s hk ha
  rw [List.mem_append, List.mem_cons] at hmem
  rw [List.mem_append]
  rcases hmem with hj | rfl | hj
  · exact .inl hj
  · exact absurd ha (hi k s hk)
  · exact .inr hj

end HoldsAnswered

/-- A rule that is answered has a body that is answered in fewer steps than any that answer the
rule. -/
theorem exists_body_before {i : ι} {k : Cursor} {s : State ν ε}
    (h : (eval g n (.rule i) k s).isSome) :
    ∃ m < n, ∃ (l : Cursor) (t : State ν ε), l.rest = k.rest ∧
      (eval g m (g.rule i).body l t).isSome ∧
      ∀ (l' : Cursor) (t' : State ν ε), l'.rest = k.rest →
        ¬ (eval g m (.rule i) l' t').isSome := by
  induction n using Nat.strongRecOn generalizing k s with
  | ind n ih =>
    match n with
    | 0 => simp [eval] at h
    | 1 => simp [eval, evalRule] at h
    | m + 2 =>
      have hbody : ∃ t, (eval g m (g.rule i).body k t).isSome := by
        rw [eval_rule, Option.isSome_map, evalRule] at h
        cases hact : (g.rule i).action with
        | none =>
          simp only [hact, Option.isSome_map] at h
          exact ⟨_, h⟩
        | some action =>
          simp only [hact, Option.isSome_map] at h
          exact ⟨_, h⟩
      -- The steps of the body may be enough for the rule, before the same text in another state.
      by_cases hagain : ∃ (l : Cursor) (t : State ν ε), l.rest = k.rest ∧
          (eval g m (.rule i) l t).isSome
      · obtain ⟨l, t, hl, ht⟩ := hagain
        obtain ⟨m', hm', hrest⟩ := ih m (by omega) ht
        rw [hl] at hrest
        exact ⟨m', by omega, hrest⟩
      · obtain ⟨t, ht⟩ := hbody
        exact ⟨m, by omega, k, t, rfl, ht, fun l' t' hl' h' => hagain ⟨l', t', hl', h'⟩⟩

/-- Answers of the same kind, from cursors before the same text. -/
inductive Outcome.Matches (k k' : Cursor) : Outcome ν → Outcome ν → Prop where
  | matched {l l' : Cursor} {items items' : List (Item ν)} (hl : k.Reaches l) (hl' : k'.Reaches l')
      (h : l'.rest = l.rest) : Matches k k' (.matched l items) (.matched l' items')
  | failed (e e' : Failure) : Matches k k' (.failed e) (.failed e')
  | aborted (e e' : Failure) : Matches k k' (.aborted e) (.aborted e')

/-- An expression is answered alike in all states. -/
theorem matches_of_eval {e : Expr ι} {k k' : Cursor} {s s' t t' : State ν ε} {o o' : Outcome ν}
    (hk : k'.rest = k.rest) (h : eval g n e k s = some (o, t))
    (h' : eval g m e k' s' = some (o', t')) : o.Matches k k' o' := by
  obtain ⟨r, hr, hagrees, -⟩ := reads_of_eval h
  rw [← hk] at hr
  obtain ⟨hagrees', -⟩ := hr.agrees_of_eval h'
  cases hagrees with
  | matched hl hcs =>
    cases hagrees' with
    | matched hl' hcs' => exact .matched hl hl' (hcs'.trans hcs.symm)
  | failed =>
    cases hagrees' with
    | failed => exact .failed _ _
  | aborted =>
    cases hagrees' with
    | aborted => exact .aborted _ _

/-- Before the text `n` steps are enough where any number is and they cover the need of the rules
that remain, in each of the five functions. -/
structure AffordsAt (g : Grammar ι ν ε) (n : Nat) : Prop where
  expr : ∀ m e remaining (k k' : Cursor) (s s' : State ν ε), k'.rest = k.rest →
    HoldsAnswered g m k.rest remaining → (eval g m e k s).isSome →
    need g.ids.length g.bodyBudget k.rest.length remaining.length + 2 * e.size ≤ n →
    (eval g n e k' s').isSome
  seq : ∀ m es c remaining (k k' : Cursor) (s s' : State ν ε), k'.rest = k.rest →
    HoldsAnswered g m k.rest remaining → (evalSeq g m es c k s).isSome →
    need g.ids.length g.bodyBudget k.rest.length remaining.length + 2 * Expr.sizeAll es ≤ n →
    (evalSeq g n es c k' s').isSome
  choice : ∀ m es b b' remaining (k k' : Cursor) (s s' : State ν ε), k'.rest = k.rest →
    HoldsAnswered g m k.rest remaining → (evalChoice g m es b k s).isSome →
    need g.ids.length g.bodyBudget k.rest.length remaining.length + 2 * Expr.sizeAll es ≤ n →
    (evalChoice g n es b' k' s').isSome
  many : ∀ m e q remaining (k k' : Cursor) (s s' : State ν ε), k'.rest = k.rest →
    HoldsAnswered g m k.rest remaining → (evalMany g m e q k s).isSome →
    need g.ids.length g.bodyBudget k.rest.length remaining.length + 2 * e.size + 1 ≤ n →
    (evalMany g n e q k' s').isSome
  rule : ∀ m i remaining (k k' : Cursor) (s s' : State ν ε), k'.rest = k.rest →
    HoldsAnswered g m k.rest remaining → (eval g m (g.rule i).body k s).isSome →
    need g.ids.length g.bodyBudget k.rest.length remaining.length + g.bodyBudget ≤ n + 1 →
    (evalRule g n i k' s').isSome

namespace AffordsAt
variable {k k' l : Cursor} {s s' t : State ν ε} {remaining : List ι}

/-- A rule is afforded by the others. -/
theorem rule_expr_succ (ih : AffordsAt g n) (i : ι) (hk : k'.rest = k.rest)
    (hr : HoldsAnswered g m k.rest remaining) (h : (eval g m (.rule i) k s).isSome)
    (hn : need g.ids.length g.bodyBudget k.rest.length remaining.length + 2 ≤ n + 1) :
    (eval g (n + 1) (.rule i) k' s').isSome := by
  obtain ⟨before, after, rfl⟩ := List.append_of_mem (hr i k s rfl h)
  obtain ⟨m', hm', l, t, hl, hbody, hfewest⟩ := exists_body_before h
  rw [eval_rule, Option.isSome_map]
  have hothers := (hr.mono (Nat.le_of_lt hm')).drop hfewest
  rw [← hl] at hothers
  refine ih.rule m' i (before ++ after) l k' t s' (hk.trans hl.symm) hothers hbody ?_
  simp only [List.length_append, List.length_cons, need, ← Nat.add_assoc, Nat.succ_mul, hl] at hn ⊢
  omega

theorem expr_succ (ih : AffordsAt g n) (e : Expr ι) (hk : k'.rest = k.rest)
    (hr : HoldsAnswered g m k.rest remaining) (h : (eval g m e k s).isSome)
    (hn : need g.ids.length g.bodyBudget k.rest.length remaining.length + 2 * e.size ≤ n + 1) :
    (eval g (n + 1) e k' s').isSome := by
  cases m with
  | zero => simp [eval] at h
  | succ m =>
    have hr' := hr.mono m.le_succ
    cases e with
    | rule i => exact ih.rule_expr_succ i hk hr h (by simpa [Expr.size] using hn)
    | literal | oneOf | any => simp [eval_literal, eval_oneOf, eval_any]
    | commit => simp [eval]
    | seq es =>
      rw [eval_seq, Option.isSome_map] at h ⊢
      exact ih.seq m es false remaining k k' s s' hk hr' h (by simp only [Expr.size] at hn; omega)
    | choice es =>
      rw [eval_choice, Option.isSome_map] at h ⊢
      exact ih.choice m es none none remaining k k' s s' hk hr' h
        (by simp only [Expr.size] at hn; omega)
    | oneOrMore e =>
      rw [eval_oneOrMore, Option.isSome_map] at h ⊢
      exact ih.many m e true remaining k k' s s' hk hr' h
        (by simp only [Expr.size] at hn; omega)
    | zeroOrMore e =>
      rw [eval_zeroOrMore, Option.isSome_map] at h ⊢
      exact ih.many m e false remaining k k' s s' hk hr' h
        (by simp only [Expr.size] at hn; omega)
    | optional e =>
      rw [eval_optional, Option.isSome_map] at h ⊢
      exact ih.expr m e remaining k k' s s' hk hr' h (by simp only [Expr.size] at hn; omega)
    | ignore e =>
      rw [eval_ignore, Option.isSome_map] at h ⊢
      exact ih.expr m e remaining k k' s s' hk hr' h (by simp only [Expr.size] at hn; omega)
    | capture name e =>
      rw [eval_capture, Option.isSome_map] at h ⊢
      exact ih.expr m e remaining k k' s s' hk hr' h (by simp only [Expr.size] at hn; omega)
    | not e =>
      rw [eval_not, Option.isSome_map] at h ⊢
      exact ih.expr m e remaining k k' s.lookAhead s'.lookAhead hk hr' h
        (by simp only [Expr.size] at hn; omega)

theorem seq_succ (ih : AffordsAt g n) (es : List (Expr ι)) (c : Bool) (hk : k'.rest = k.rest)
    (hr : HoldsAnswered g m k.rest remaining) (h : (evalSeq g m es c k s).isSome)
    (hn : need g.ids.length g.bodyBudget k.rest.length remaining.length +
      2 * Expr.sizeAll es ≤ n + 1) :
    (evalSeq g (n + 1) es c k' s').isSome := by
  cases m with
  | zero => simp [evalSeq] at h
  | succ m =>
    have hr' := hr.mono m.le_succ
    cases es with
    | nil => rfl
    | cons e es =>
      simp only [Expr.sizeAll] at hn
      by_cases hc : e = .commit
      · subst hc
        rw [evalSeq] at h ⊢
        exact ih.seq m es true remaining k k' s s' hk hr' h (by omega)
      · rw [evalSeq_cons _ _ hc] at h ⊢
        cases he : eval g m e k s with
        | none => simp [he] at h
        | some b =>
          obtain ⟨o, t⟩ := b
          obtain ⟨⟨o', t'⟩, ha⟩ := Option.isSome_iff_exists.1 <|
            ih.expr m e remaining k k' s s' hk hr' (by simp [he]) (by omega)
          rw [ha]
          rw [he] at h
          cases matches_of_eval hk he ha with
          | failed | aborted => rfl
          | @matched l l' _ _ hl _ hrest =>
            simp only [Option.isSome_map] at h ⊢
            rcases hl.eq_or_shorter with rfl | ⟨-, hlt⟩
            · exact ih.seq m es c remaining l l' t t' hrest hr' h (by omega)
            · have := need_shorter g.ids.length g.bodyBudget remaining.length hlt
              exact ih.seq m es c g.ids l l' t t' hrest (holdsAnswered_ids g m l.rest) h (by omega)

theorem choice_succ (ih : AffordsAt g n) (es : List (Expr ι)) (b b' : Option Failure)
    (hk : k'.rest = k.rest) (hr : HoldsAnswered g m k.rest remaining)
    (h : (evalChoice g m es b k s).isSome)
    (hn : need g.ids.length g.bodyBudget k.rest.length remaining.length +
      2 * Expr.sizeAll es ≤ n + 1) :
    (evalChoice g (n + 1) es b' k' s').isSome := by
  cases m with
  | zero => simp [evalChoice] at h
  | succ m =>
    have hr' := hr.mono m.le_succ
    cases es with
    | nil => rfl
    | cons e es =>
      simp only [Expr.sizeAll] at hn
      rw [evalChoice] at h ⊢
      cases he : eval g m e k s with
      | none => simp [he] at h
      | some a =>
        obtain ⟨o, t⟩ := a
        obtain ⟨⟨o', t'⟩, ha⟩ := Option.isSome_iff_exists.1 <|
          ih.expr m e remaining k k' s s' hk hr' (by simp [he]) (by omega)
        rw [ha]
        rw [he] at h
        cases matches_of_eval hk he ha with
        | matched | aborted => rfl
        | failed => exact ih.choice m es _ _ remaining k k' t t' hk hr' h (by omega)

theorem many_succ (ih : AffordsAt g n) (e : Expr ι) (q : Bool) (hk : k'.rest = k.rest)
    (hr : HoldsAnswered g m k.rest remaining) (h : (evalMany g m e q k s).isSome)
    (hn : need g.ids.length g.bodyBudget k.rest.length remaining.length + 2 * e.size + 1 ≤ n + 1) :
    (evalMany g (n + 1) e q k' s').isSome := by
  cases m with
  | zero => simp [evalMany] at h
  | succ m =>
    have hr' := hr.mono m.le_succ
    rw [evalMany_succ] at h ⊢
    cases he : eval g m e k s with
    | none => simp [he] at h
    | some a =>
      obtain ⟨o, t⟩ := a
      obtain ⟨⟨o', t'⟩, ha⟩ := Option.isSome_iff_exists.1 <|
        ih.expr m e remaining k k' s s' hk hr' (by simp [he]) (by omega)
      rw [ha]
      rw [he] at h
      cases matches_of_eval hk he ha with
      | failed | aborted => rfl
      | @matched l l' _ _ hl hl' hrest =>
        dsimp only at h ⊢
        -- Offsets differ between the runs: what is left tells that both consumed or neither did.
        by_cases hlt' : k'.offset < l'.offset
        · have hlen : l.rest.length < k.rest.length := by
            rw [← hrest, ← hk]
            exact hl'.shorter hlt'
          have hlt : k.offset < l.offset := hl.offset_lt_iff.2 hlen
          have := need_shorter g.ids.length g.bodyBudget remaining.length hlen
          have hbody := g.two_le_bodyBudget
          rw [if_pos hlt, Option.isSome_map] at h
          rw [if_pos hlt', Option.isSome_map]
          exact ih.many m e false g.ids l l' t t' hrest (holdsAnswered_ids g m l.rest) h
            (by omega)
        · rw [if_neg hlt']
          rfl

theorem rule_succ (ih : AffordsAt g n) (i : ι) (hk : k'.rest = k.rest)
    (hr : HoldsAnswered g m k.rest remaining) (h : (eval g m (g.rule i).body k s).isSome)
    (hn : need g.ids.length g.bodyBudget k.rest.length remaining.length + g.bodyBudget ≤
      n + 1 + 1) :
    (evalRule g (n + 1) i k' s').isSome := by
  have := g.size_le_bodyBudget i
  have hbody (t : State ν ε) : (eval g n (g.rule i).body k' t).isSome :=
    ih.expr m _ remaining k k' s t hk hr h (by omega)
  rw [evalRule]
  cases (g.rule i).action <;> simpa using hbody _

end AffordsAt

theorem affordsAt (g : Grammar ι ν ε) : ∀ n, AffordsAt g n
  | 0 => by
    have := g.two_le_bodyBudget
    constructor
    · intro m e remaining k k' s s' _ _ _ hn; have := e.size_pos; omega
    · intro m es c remaining k k' s s' _ _ _ hn; have := Expr.sizeAll_pos es; omega
    · intro m es b b' remaining k k' s s' _ _ _ hn; have := Expr.sizeAll_pos es; omega
    · intro m e q remaining k k' s s' _ _ _ hn; omega
    · intro m i remaining k k' s s' _ _ _ hn; omega
  | n + 1 =>
    have ih := affordsAt g n
    { expr := fun _ e _ _ _ _ _ => ih.expr_succ e
      seq := fun _ es c _ _ _ _ _ => ih.seq_succ es c
      choice := fun _ es b b' _ _ _ _ _ => ih.choice_succ es b b'
      many := fun _ e q _ _ _ _ _ => ih.many_succ e q
      rule := fun _ i _ _ _ _ _ => ih.rule_succ i }

variable {i : ι} {k : Cursor} {s : State ν ε} {a : Outcome ν × State ν ε} {text : String}

/-- What any number of steps answers, the budget does. -/
theorem eval_of_budget (h : eval g n (.rule i) k s = some a) :
    eval g (g.budget k.rest.length) (.rule i) k s = some a := by
  have hsome : (eval g (g.budget k.rest.length) (.rule i) k s).isSome := by
    refine (affordsAt g _).expr n (.rule i) g.ids k k s s rfl (holdsAnswered_ids g n k.rest)
      (by simp [h]) ?_
    have := g.two_le_bodyBudget
    rw [Grammar.budget, Nat.mul_assoc]
    simp only [Expr.size, need, Nat.succ_mul]
    omega
  obtain ⟨b, hb⟩ := Option.isSome_iff_exists.1 hsome
  rw [hb, eval_unique hb h]

/-- Without left recursion every rule is matched or refused within the budget. -/
theorem eval_budget (hg : g.NotLeftRecursive) (i : ι) (k : Cursor) (s : State ν ε) :
    (eval g (g.budget k.rest.length) (.rule i) k s).isSome := by
  obtain ⟨r, hr⟩ := exists_reads hg (.rule i) k.rest
  obtain ⟨n, a, ha, -⟩ := eval_of_reads hr s
  exact Option.isSome_iff_exists.2 ⟨a, eval_of_budget ha⟩

end Fleet.Peg
