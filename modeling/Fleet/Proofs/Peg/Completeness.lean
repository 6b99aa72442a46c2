import Fleet.Peg.Steps
import Fleet.Proofs.Peg.Agreement
/-!
What the relation allows the matcher answers, with enough steps and in whatever state it is
(`eval_of_reads`). The proof follows a derivation; of two parts the one that needs more steps
decides how many are enough.
-/

namespace Fleet.Peg
open Fleet.Text

variable {ι ν ε : Type} [BEq ι] {g : Grammar ι ν ε}

/-- With enough steps the matcher answers what the result says. -/
def Evaluates (g : Grammar ι ν ε) (task : Task ι) (k : Cursor) (s : State ν ε) (r : Result ν) :
    Prop :=
  ∃ n a, Runs g n task k s a ∧ Agrees k s r a

/-- A derivation for an expression is also one for its alternatives after others. -/
structure Answered (g : Grammar ι ν ε) (e : Expr ι) (cs : List Char) (r : Result ν) : Prop where
  expr : ∀ (k : Cursor) (s : State ν ε), k.rest = cs → Evaluates g (.expr e) k s r
  choice : ∀ es, e = .choice es → ∀ (b : Option Failure) (k : Cursor) (s : State ν ε),
    k.rest = cs → Evaluates g (.choice es b) k s r

theorem Answered.of_expr {e : Expr ι} {cs : List Char} {r : Result ν}
    (h : ∀ (k : Cursor) (s : State ν ε), k.rest = cs → Evaluates g (.expr e) k s r)
    (he : ∀ es, e ≠ .choice es := by rintro _ ⟨⟩) : Answered g e cs r :=
  ⟨h, fun es hes => absurd hes (he es)⟩

theorem Answered.of_choice {es : List (Expr ι)} {cs : List Char} {r : Result ν}
    (h : ∀ (b : Option Failure) (k : Cursor) (s : State ν ε),
      k.rest = cs → Evaluates g (.choice es b) k s r) : Answered g (.choice es) cs r where
  expr k s hk := by
    obtain ⟨n, a, h, ha⟩ := h none k s hk
    exact ⟨_, _, .choice h, ha.unwind⟩
  choice _ hes := Expr.choice.inj hes ▸ h

mutual

theorem Reads.answered {e : Expr ι} {cs : List Char} {r : Result ν} :
    Reads g e cs r → Answered g e cs r
  | .literal text rest => .of_expr fun k s hk => by
    obtain ⟨_, p⟩ := k
    obtain rfl : _ = text.toList ++ rest := hk
    obtain ⟨q, hq⟩ := Cursor.strip?_append text.toList rest p
    exact ⟨1, _, .literal hq, .matched ⟨_, hq⟩ rfl (.refl s) id⟩
  | .literal_failed h => .of_expr fun k s hk =>
    ⟨1, _, .literal_failed (Cursor.strip?_eq_none_iff.2 (hk ▸ h)), .fail k s _ _⟩
  | .oneOf rest h => .of_expr fun k s hk => by
    obtain ⟨_, p⟩ := k
    subst hk
    exact ⟨1, _, .oneOf rfl h, .matched (.of_next? rfl) rfl (.refl s) id⟩
  | .oneOf_failed h => .of_expr fun k s hk =>
    ⟨1, _, .oneOf_failed ((k.next?_any _).trans (hk ▸ h)), .fail k s _ _⟩
  | .any c rest => .of_expr fun k s hk => by
    obtain ⟨_, p⟩ := k
    subst hk
    exact ⟨1, _, .any rfl, .matched (.of_next? rfl) rfl (.refl s) id⟩
  | .any_failed => .of_expr fun k s hk => by
    obtain ⟨_, p⟩ := k
    subst hk
    exact ⟨1, _, .any_failed rfl, .fail _ s _ _⟩
  | .commit cs => .of_expr fun k s hk => by
    subst hk
    exact ⟨1, _, .commit, .here k s⟩
  | .seq h => .of_expr fun k s hk => by
    obtain ⟨n, a, h, ha⟩ := h.evaluates k s hk
    exact ⟨_, _, .seq h, ha.unwind⟩
  | .oneOrMore h => .of_expr fun k s hk => by
    obtain ⟨n, a, h, ha⟩ := h.evaluates k s hk
    exact ⟨_, _, .oneOrMore h, ha.unwind⟩
  | .zeroOrMore h => .of_expr fun k s hk => by
    obtain ⟨n, a, h, ha⟩ := h.evaluates k s hk
    exact ⟨_, _, .zeroOrMore h, ha.unwind⟩
  | .choice_none cs => .of_choice fun b k s _ => ⟨1, _, .choice_none, .failed (.refl s) id⟩
  | .choice_taken h hr => .of_choice fun b k s hk => by
    obtain ⟨n, a, h, ha⟩ := h.answered.expr k s hk
    exact ⟨_, _, .choice_taken h (ha.not_failed hr), ha⟩
  | .choice_next h hr => .of_choice fun b k s hk => by
    obtain ⟨n, _, h, ha⟩ := h.answered.expr k s hk
    cases ha with
    | @failed f _ t ht hrej =>
      obtain ⟨m, d, hd, hagrees⟩ := hr.answered.choice _ rfl (some (Failure.join b f)) k t hk
      exact ⟨_, _, .choice_next (h.mono (Nat.le_max_left n m)) (hd.mono (Nat.le_max_right n m)),
        hagrees.of_extends (h.extends_of_unmatched rfl ht) hrej⟩
  | .optional h hr => .of_expr fun k s hk => by
    obtain ⟨n, a, h, ha⟩ := h.answered.expr k s hk
    exact ⟨_, _, .optional h (ha.not_failed hr), ha⟩
  | .optional_absent h => .of_expr fun k s hk => by
    obtain ⟨n, _, h, ha⟩ := h.answered.expr k s hk
    cases ha with
    | failed ht hrej =>
      exact ⟨_, _, .optional_absent h,
        .matched (.refl k) hk (h.extends_of_unmatched rfl ht) hrej⟩
  | .not_failed h => .of_expr fun k s hk => by
    obtain ⟨n, _, h, ha⟩ := h.answered.expr k s.lookAhead hk
    cases ha with
    | matched _ _ ht hrej =>
      exact ⟨_, _, .not_failed h, .of_extends ht.lookBack hrej (.fail k _ _ _)⟩
  | .not h hr => .of_expr fun k s hk => by
    obtain ⟨n, ⟨o, t⟩, h, ha⟩ := h.answered.expr k s.lookAhead hk
    obtain ⟨bs, ht⟩ := ha.exists_extends
    exact ⟨_, _, .not h (ha.unmatched hr),
      .matched (.refl k) hk ht.lookBack.clearRejection fun _ => rfl⟩
  | .ignore h => .of_expr fun k s hk => by
    obtain ⟨n, _, h, ha⟩ := h.answered.expr k s hk
    cases ha with
    | matched hl hcs ht hrej => exact ⟨_, _, .ignore h, .matched hl hcs ht hrej⟩
  | .ignore_unmatched h hr => .of_expr fun k s hk => by
    obtain ⟨n, a, h, ha⟩ := h.answered.expr k s hk
    exact ⟨_, _, .ignore_unmatched h (ha.unmatched hr), ha⟩
  | .capture h => .of_expr fun k s hk => by
    obtain ⟨n, _, h, ha⟩ := h.answered.expr k s hk
    cases ha with
    | matched hl hcs ht hrej => exact ⟨_, _, .capture h, .matched hl hcs (ht.capture _ _) hrej⟩
  | .capture_unmatched h hr => .of_expr fun k s hk => by
    obtain ⟨n, a, h, ha⟩ := h.answered.expr k s hk
    exact ⟨_, _, .capture_unmatched h (ha.unmatched hr), ha⟩
  | .transparent hact h => .of_expr fun k s hk => by
    obtain ⟨n, ⟨o, t⟩, h, ha⟩ := h.answered.expr k (s.enter _ k.pos) hk
    exact ⟨_, _, .rule (.transparent hact h), ha.leave.unwind⟩
  | .acting hact h hn => .of_expr fun k s hk => by
    obtain ⟨n, _, h, ha⟩ := h.answered.expr k (s.enter _ k.pos).openScope hk
    cases ha with
    | matched hl hcs ht hrej =>
      obtain ⟨hscope, ht⟩ := ht.closeScope
      exact ⟨_, _, .rule (.acting hact h (hscope ▸ hn)),
        .matched hl hcs ht fun h => by simp [hrej h]⟩
  | .acting_rejected hact h he => .of_expr fun k s hk => by
    obtain ⟨n, _, h, ha⟩ := h.answered.expr k (s.enter _ k.pos).openScope hk
    cases ha with
    | matched _ _ ht _ =>
      obtain ⟨hscope, ht⟩ := ht.closeScope
      exact ⟨_, _, .rule (.acting_rejected hact h (hscope ▸ he)),
        (Agrees.aborted (ht.reject _ _ _)).unwind⟩
  | .acting_unmatched hact h hr => .of_expr fun k s hk => by
    obtain ⟨n, ⟨o, t⟩, h, ha⟩ := h.answered.expr k (s.enter _ k.pos).openScope hk
    exact ⟨_, _, .rule (.acting_unmatched hact h (ha.unmatched hr)),
      (ha.closeScope (ha.unmatched hr)).unwind⟩

theorem ReadsSeq.evaluates {c : Bool} {es : List (Expr ι)} {cs : List Char} {r : Result ν} :
    ReadsSeq g c es cs r → ∀ (k : Cursor) (s : State ν ε), k.rest = cs →
      Evaluates g (.seq es c) k s r
  | .nil c cs => fun k s hk => hk ▸ ⟨1, _, .seq_nil, .here k s⟩
  | .commit h => fun k s hk => by
    obtain ⟨n, a, h, ha⟩ := h.evaluates k s hk
    exact ⟨_, _, .seq_commit h, ha⟩
  | .cons hc h hr => fun k s hk => by
    obtain ⟨n, _, h, ha⟩ := h.answered.expr k s hk
    cases ha with
    | @matched l _ _ _ t hl hcs ht hrej =>
      obtain ⟨m, b, hb, hagrees⟩ := hr.evaluates l t hcs
      exact ⟨_, _, .seq_cons hc (h.mono (Nat.le_max_left n m)) (hb.mono (Nat.le_max_right n m)),
        hagrees.after hl ht hrej⟩
  | .failed hc h => fun k s hk => by
    obtain ⟨n, _, h, ha⟩ := h.answered.expr k s hk
    cases ha with
    | failed ht hrej => exact ⟨_, _, .seq_failed hc h, .failed ht hrej⟩
  | .committed hc h => fun k s hk => by
    obtain ⟨n, _, h, ha⟩ := h.answered.expr k s hk
    cases ha with
    | failed ht _ => exact ⟨_, _, .seq_committed hc h, .aborted ht⟩
  | .aborted hc h => fun k s hk => by
    obtain ⟨n, _, h, ha⟩ := h.answered.expr k s hk
    cases ha with
    | aborted ht => exact ⟨_, _, .seq_aborted hc h, .aborted ht⟩

theorem ReadsMany.evaluates {q : Bool} {e : Expr ι} {cs : List Char} {r : Result ν} :
    ReadsMany g q e cs r → ∀ (k : Cursor) (s : State ν ε), k.rest = cs →
      Evaluates g (.many e q) k s r
  | .done h => fun k s hk => by
    obtain ⟨n, _, h, ha⟩ := h.answered.expr k s hk
    cases ha with
    | failed ht hrej =>
      exact ⟨_, _, .many_done h, .matched (.refl k) hk (h.extends_of_unmatched rfl ht) hrej⟩
  | .missing h => fun k s hk => by
    obtain ⟨n, _, h, ha⟩ := h.answered.expr k s hk
    cases ha with
    | failed ht hrej => exact ⟨_, _, .many_missing h, .failed ht hrej⟩
  | .idle h => fun k s hk => by
    obtain ⟨n, _, h, ha⟩ := h.answered.expr k s hk
    cases ha with
    | @matched l _ _ _ _ hl hcs ht hrej =>
      have hidle : ¬ k.offset < l.offset := by simp [hl.offset_lt_iff, hcs, hk]
      exact ⟨_, _, .many_idle h hidle, .matched hl hcs ht hrej⟩
  | .more h hlt hr => fun k s hk => by
    obtain ⟨n, _, h, ha⟩ := h.answered.expr k s hk
    cases ha with
    | @matched l _ _ _ t hl hcs ht hrej =>
      obtain ⟨m, b, hb, hagrees⟩ := hr.evaluates l t hcs
      have hoff : k.offset < l.offset := by rwa [hl.offset_lt_iff, hcs, hk]
      exact ⟨_, _,
        .many_more (h.mono (Nat.le_max_left n m)) hoff (hb.mono (Nat.le_max_right n m)),
        hagrees.after hl ht hrej⟩
  | .aborted h => fun k s hk => by
    obtain ⟨n, _, h, ha⟩ := h.answered.expr k s hk
    cases ha with
    | aborted ht => exact ⟨_, _, .many_aborted h, .aborted ht⟩

end

/-- Whatever the relation allows is the answer, in every state. -/
theorem eval_of_reads {e : Expr ι} {k : Cursor} {r : Result ν} (h : Reads g e k.rest r)
    (s : State ν ε) : ∃ n a, eval g n e k s = some a ∧ Agrees k s r a := by
  obtain ⟨n, a, h, ha⟩ := h.answered.expr k s rfl
  exact ⟨n, a, h.eval_eq, ha⟩

end Fleet.Peg
