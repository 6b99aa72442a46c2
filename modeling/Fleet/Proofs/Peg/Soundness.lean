import Fleet.Proofs.Peg.Agreement
/-!
Every answer of the matcher is one that the relation allows (`reads_of_eval`), by induction on how
the answer came about.
-/

namespace Fleet.Peg
open Fleet.Text

variable {ι ν ε : Type} {g : Grammar ι ν ε} {n : Nat}

/-- The results that the relation allows. Of a choice the failures before play no part. -/
def Task.Allows (g : Grammar ι ν ε) : Task ι → List Char → Result ν → Prop
  | .expr e => Reads g e
  | .seq items c => ReadsSeq g c items
  | .choice items _ => Reads g (.choice items)
  | .many e q => ReadsMany g q e
  | .rule id => Reads g (.rule id)

variable [BEq ι] {k : Cursor} {s t : State ν ε} {a : Outcome ν × State ν ε}

theorem Runs.sound {task : Task ι} (h : Runs g n task k s a) :
    ∃ r, task.Allows g k.rest r ∧ Agrees k s r a := by
  induction h with
  | @literal _ text _ l s h =>
    have hr := Cursor.strip?_rest h
    exact ⟨_, hr ▸ Reads.literal text l.rest, .matched ⟨_, h⟩ rfl (.refl s) id⟩
  | @literal_failed _ _ k s h =>
    exact ⟨.failed, Reads.literal_failed (Cursor.strip?_eq_none_iff.1 h), .fail k s _ _⟩
  | @oneOf _ _ _ _ l s h hc =>
    have hr := Cursor.next?_rest h
    exact ⟨_, hr ▸ Reads.oneOf l.rest hc, .matched (.of_next? h) rfl (.refl s) id⟩
  | @oneOf_failed _ cls k s h =>
    rw [k.next?_any] at h
    exact ⟨.failed, Reads.oneOf_failed h, .fail k s _ _⟩
  | @any _ _ c l s h =>
    have hr := Cursor.next?_rest h
    exact ⟨_, hr ▸ Reads.any c l.rest, .matched (.of_next? h) rfl (.refl s) id⟩
  | @any_failed _ k s h =>
    exact ⟨.failed, Cursor.rest_of_next?_none h ▸ Reads.any_failed, .fail k s _ _⟩
  | @commit _ k s => exact ⟨_, Reads.commit _, .here k s⟩
  | optional _ ho ih =>
    obtain ⟨r, hr, ha⟩ := ih
    exact ⟨r, Reads.optional hr (ha.ne_failed ho), ha⟩
  | @optional_absent _ _ k _ _ _ h ih =>
    obtain ⟨_, hr, ha⟩ := ih
    obtain ⟨rfl, bs, ht, hrej⟩ := ha.of_failed
    exact ⟨_, Reads.optional_absent hr,
      .matched (.refl k) rfl (h.extends_of_unmatched rfl ht) hrej⟩
  | @not_failed _ _ k _ _ _ _ _ ih =>
    obtain ⟨_, hr, ha⟩ := ih
    obtain ⟨bs, rfl, -, ht, hrej⟩ := ha.of_matched
    exact ⟨_, Reads.not_failed hr, .of_extends ht.lookBack hrej (.fail k _ _ _)⟩
  | @not _ _ k _ _ _ _ ho ih =>
    obtain ⟨r, hr, ha⟩ := ih
    obtain ⟨bs, ht⟩ := ha.exists_extends
    exact ⟨_, Reads.not hr (ha.of_unmatched ho),
      .matched (.refl k) rfl ht.lookBack.clearRejection fun _ => rfl⟩
  | ignore _ ih =>
    obtain ⟨_, hr, ha⟩ := ih
    obtain ⟨bs, rfl, hl, ht, hrej⟩ := ha.of_matched
    exact ⟨_, Reads.ignore hr, .matched hl rfl ht hrej⟩
  | ignore_unmatched _ ho ih =>
    obtain ⟨r, hr, ha⟩ := ih
    exact ⟨r, Reads.ignore_unmatched hr (ha.of_unmatched ho), ha⟩
  | @capture _ name _ _ _ _ _ _ _ ih =>
    obtain ⟨_, hr, ha⟩ := ih
    obtain ⟨bs, rfl, hl, ht, hrej⟩ := ha.of_matched
    exact ⟨_, Reads.capture hr, .matched hl rfl (ht.capture name _) hrej⟩
  | capture_unmatched _ ho ih =>
    obtain ⟨r, hr, ha⟩ := ih
    exact ⟨r, Reads.capture_unmatched hr (ha.of_unmatched ho), ha⟩
  | seq _ ih =>
    obtain ⟨r, hr, ha⟩ := ih
    exact ⟨r, Reads.seq hr, ha.unwind⟩
  | oneOrMore _ ih =>
    obtain ⟨r, hr, ha⟩ := ih
    exact ⟨r, Reads.oneOrMore hr, ha.unwind⟩
  | zeroOrMore _ ih =>
    obtain ⟨r, hr, ha⟩ := ih
    exact ⟨r, Reads.zeroOrMore hr, ha.unwind⟩
  | choice _ ih | rule _ ih =>
    obtain ⟨r, hr, ha⟩ := ih
    exact ⟨r, hr, ha.unwind⟩
  | @seq_nil _ c k s => exact ⟨_, ReadsSeq.nil c _, .here k s⟩
  | seq_commit _ ih =>
    obtain ⟨r, hr, ha⟩ := ih
    exact ⟨r, ReadsSeq.commit hr, ha⟩
  | seq_cons hc _ _ ih ihr =>
    obtain ⟨_, hfirst, ha⟩ := ih
    obtain ⟨bs, rfl, hl, ht, hrej⟩ := ha.of_matched
    obtain ⟨r, hr, ha⟩ := ihr
    exact ⟨_, ReadsSeq.cons hc hfirst hr, ha.after hl ht hrej⟩
  | seq_failed hc _ ih =>
    obtain ⟨_, hr, ha⟩ := ih
    obtain ⟨rfl, bs, ht, hrej⟩ := ha.of_failed
    exact ⟨_, ReadsSeq.failed hc hr, .failed ht hrej⟩
  | seq_committed hc _ ih =>
    obtain ⟨_, hr, ha⟩ := ih
    obtain ⟨rfl, bs, ht, -⟩ := ha.of_failed
    exact ⟨_, ReadsSeq.committed hc hr, .aborted ht⟩
  | seq_aborted hc _ ih =>
    obtain ⟨_, hr, ha⟩ := ih
    obtain ⟨rfl, -⟩ := ha.of_aborted
    exact ⟨_, ReadsSeq.aborted hc hr, ha⟩
  | @choice_none _ _ _ s => exact ⟨_, Reads.choice_none _, .failed (.refl s) id⟩
  | choice_taken _ ho ih =>
    obtain ⟨r, hr, ha⟩ := ih
    exact ⟨r, Reads.choice_taken hr (ha.ne_failed ho), ha⟩
  | choice_next h _ ih ihr =>
    obtain ⟨_, hfirst, ha⟩ := ih
    obtain ⟨rfl, bs, ht, hrej⟩ := ha.of_failed
    obtain ⟨r, hr, ha⟩ := ihr
    exact ⟨r, Reads.choice_next hfirst hr, ha.of_extends (h.extends_of_unmatched rfl ht) hrej⟩
  | many_more _ hlt _ ih ihr =>
    obtain ⟨_, hfirst, ha⟩ := ih
    obtain ⟨bs, rfl, hl, ht, hrej⟩ := ha.of_matched
    obtain ⟨r, hr, ha⟩ := ihr
    exact ⟨_, ReadsMany.more hfirst (hl.shorter hlt) hr, ha.after hl ht hrej⟩
  | many_idle _ hle ih =>
    obtain ⟨_, hr, ha⟩ := ih
    obtain ⟨bs, rfl, hl, -, -⟩ := ha.of_matched
    obtain rfl := hl.eq_of_offset hle
    exact ⟨_, ReadsMany.idle hr, ha⟩
  | @many_done _ _ k _ _ _ h ih =>
    obtain ⟨_, hr, ha⟩ := ih
    obtain ⟨rfl, bs, ht, hrej⟩ := ha.of_failed
    exact ⟨_, ReadsMany.done hr, .matched (.refl k) rfl (h.extends_of_unmatched rfl ht) hrej⟩
  | many_missing _ ih =>
    obtain ⟨_, hr, ha⟩ := ih
    obtain ⟨rfl, -⟩ := ha.of_failed
    exact ⟨_, ReadsMany.missing hr, ha⟩
  | many_aborted _ ih =>
    obtain ⟨_, hr, ha⟩ := ih
    obtain ⟨rfl, -⟩ := ha.of_aborted
    exact ⟨_, ReadsMany.aborted hr, ha⟩
  | transparent hact _ ih =>
    obtain ⟨r, hr, ha⟩ := ih
    exact ⟨r, Reads.transparent hact hr, ha.leave⟩
  | acting hact _ hn ih =>
    obtain ⟨_, hr, ha⟩ := ih
    obtain ⟨bs, rfl, hl, ht, hrej⟩ := ha.of_matched
    obtain ⟨hscope, ht⟩ := ht.closeScope
    rw [hscope] at hn
    exact ⟨_, Reads.acting hact hr hn, .matched hl rfl ht fun h => by simp [hrej h]⟩
  | acting_rejected hact _ he ih =>
    obtain ⟨_, hr, ha⟩ := ih
    obtain ⟨bs, rfl, -, ht, -⟩ := ha.of_matched
    obtain ⟨hscope, ht⟩ := ht.closeScope
    rw [hscope] at he
    exact ⟨_, Reads.acting_rejected hact hr he, .aborted (ht.reject _ _ _)⟩
  | acting_unmatched hact _ ho ih =>
    obtain ⟨r, hr, ha⟩ := ih
    exact ⟨r, Reads.acting_unmatched hact hr (ha.of_unmatched ho), ha.closeScope ho⟩

/-- A run leaves the rules entered, and the lookaheads, as they were. -/
theorem Runs.exists_extends {task : Task ι} (h : Runs g n task k s a) : ∃ bs, s.Extends a.2 bs := by
  obtain ⟨r, -, ha⟩ := h.sound
  exact ha.exists_extends

/-- Whatever state the matcher is in, its answer is one that the relation allows. -/
theorem reads_of_eval {e : Expr ι} (h : eval g n e k s = some a) :
    ∃ r, Reads g e k.rest r ∧ Agrees k s r a ∧ KeepsScope s a := by
  obtain ⟨r, hr, ha⟩ := (runs_of_answer (t := .expr e) h).sound
  refine ⟨r, hr, ha, ?_⟩
  intro ho
  obtain ⟨bs, ht⟩ := ha.exists_extends
  have hreset := congrArg State.scope (resetScope_of_eval h ho)
  exact hreset.symm.trans ht.reset_scope

theorem extends_of_eval {e : Expr ι} {o : Outcome ν} (h : eval g n e k s = some (o, t)) :
    ∃ bs, s.Extends t bs := (runs_of_answer (t := .expr e) h).exists_extends

end Fleet.Peg
