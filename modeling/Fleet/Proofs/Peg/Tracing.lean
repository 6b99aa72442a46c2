import Fleet.Proofs.Peg.Account
/-!
Every answer has the account that its trace gives (`accounts_of_eval`, `accounts_of_rule`). The
proof is by induction on how the answer came about, with what the trace tells of each of its parts.
-/

namespace Fleet.Peg
open Fleet.Text

variable {ι ν ε : Type} [BEq ι] {g : Grammar ι ν ε} {n : Nat}

/-- What the trace of the task tells of an answer. What happens in a rule happens among those being
matched with it. -/
def Task.Accounted (g : Grammar ι ν ε) (n : Nat) (within : List Frame) (k : Cursor) (s : State ν ε)
    (a : Outcome ν × State ν ε) : Task ι → Prop
  | .expr e => Accounts g within k s (trace g n within e k s) a
  | .seq items c => Accounts g within k s (traceSeq g n within items c k s) a
  | .choice items best => (∀ f ∈ best, Failure.Arises within k f) →
    Accounts g within k s (traceChoice g n within items k s) a
  | .many e _ => Accounts g within k s (traceMany g n within e k s) a
  | .rule i => Accounts g (⟨(g.rule i).name, k.pos⟩ :: within) k s (traceRule g n within i k s) a

section Accounted
variable {within : List Frame} {e : Expr ι} {k : Cursor} {s t : State ν ε}
  {a : Outcome ν × State ν ε} {o : Outcome ν}

/-- The rules being matched are the same after an expression as before it. -/
theorem Runs.frames (h : Runs g n (.expr e) k s (o, t)) (hs : s.frames = within) :
    t.frames = within := by
  obtain ⟨bs, ht⟩ := h.exists_extends
  exact ht.frames.trans hs

theorem enter_frames {name : String} {p : Position} (hs : s.frames = within) :
    (s.enter name p).frames = ⟨name, p⟩ :: within := congrArg (_ :: ·) hs

theorem Runs.accounted {task : Task ι} (h : Runs g n task k s a) (hs : s.frames = within) :
    task.Accounted g n within k s a := by
  induction h generalizing within with
  | literal h =>
    rw [Task.Accounted, trace, h]
    exact Accounts.tried _ (.matched ⟨_, h⟩ _)
  | @literal_failed _ _ k _ h =>
    rw [Task.Accounted, trace, h]
    exact Accounts.tried _ (.fail hs k _ _)
  | @oneOf _ _ _ c _ _ h hc =>
    rw [Task.Accounted, trace, h, Option.any_some, hc]
    exact Accounts.tried _ (.matched (.of_next? h) [.text c.toString])
  | @oneOf_failed _ _ k _ h =>
    rw [Task.Accounted, trace, h]
    exact Accounts.tried _ (.fail hs k _ _)
  | any h =>
    rw [Task.Accounted, trace, h]
    exact Accounts.tried _ (.matched (.of_next? h) _)
  | @any_failed _ k _ h =>
    rw [Task.Accounted, trace, h]
    exact Accounts.tried _ (.fail hs k _ _)
  | @commit _ k _ =>
    rw [Task.Accounted, trace]
    exact Accounts.tried _ (.matched (.refl k) [])
  | optional _ _ ih | ignore_unmatched _ _ ih | capture_unmatched _ _ ih =>
    rw [Task.Accounted, trace]
    exact Accounts.tried _ (ih hs)
  | @optional_absent _ _ k _ _ _ _ ih =>
    obtain ⟨hq, hr, -, hf⟩ := Accounts.of_failed (ih hs)
    rw [Task.Accounted, trace]
    exact Accounts.tried _ ⟨.matched hq hr (.refl k), hf⟩
  | ignore _ ih =>
    obtain ⟨hq, hr, hl, hf⟩ := Accounts.of_matched (ih hs)
    rw [Task.Accounted, trace]
    exact Accounts.tried _ ⟨.matched hq hr hl, hf⟩
  | capture _ ih =>
    rw [Task.Accounted, trace]
    exact Accounts.tried _ (Accounts.congr (ih hs) ⟨rfl, rfl, rfl, rfl⟩ ⟨rfl, rfl, rfl, rfl⟩)
  | seq _ ih | oneOrMore _ ih | zeroOrMore _ ih =>
    rw [Task.Accounted, trace]
    exact (Accounts.tried _ (ih hs)).unwind _
  | choice _ ih =>
    rw [Task.Accounted, trace]
    exact (Accounts.tried _ (ih hs nofun)).unwind _
  | @rule _ _ k _ _ _ ih =>
    rw [Task.Accounted, trace]
    exact ((Accounts.tried _ (ih hs)).unwind _).outer (began_cons _ within k)
  -- Of what happened in a lookahead only the refusals are told.
  | @not_failed _ _ k s _ _ t h ih =>
    obtain ⟨-, hr, -, ht⟩ := Accounts.of_matched (ih hs)
    obtain ⟨bs, hext⟩ := h.exists_extends
    rw [Task.Accounted, trace, h.eval_eq]
    exact Accounts.tried _ (.follow (Trace.quiet_deeper _) (ht.deeper s.scope.mark) hr
      (.fail (hext.lookBack.frames.trans hs) k .lookahead _))
  | @not _ _ k s o t h ho ih =>
    have ht := (Accounts.records (ih hs)).deeper s.scope.mark
    have hclear : Records g s _ (t.lookBack s.scope.mark).clearRejection :=
      ⟨ht.lookahead, ht.furthest, ht.rejections⟩
    rw [Task.Accounted, trace, h.eval_eq, Option.any_some, ho]
    exact Accounts.tried _
      (.follow (Trace.quiet_deeper _) hclear (fun _ => rfl) (.matched (.refl k) []))
  | seq_nil =>
    rw [Task.Accounted, traceSeq]
    exact .matched (.refl _) []
  | seq_commit _ ih =>
    rw [Task.Accounted, traceSeq]
    exact ih hs
  | seq_cons hc h _ ih ihr =>
    rw [Task.Accounted, traceSeq_cons _ _ hc, h.eval_eq]
    exact Accounts.after (ih hs) (ihr (h.frames hs))
  | seq_failed hc h ih | seq_aborted hc h ih =>
    rw [Task.Accounted, traceSeq_cons _ _ hc, h.eval_eq]
    simpa [Task.Accounted] using ih hs
  | @seq_committed _ _ _ k _ f t hc h ih =>
    obtain ⟨hq, hr, harises, hf⟩ := Accounts.of_failed (ih hs)
    -- The element's rules are left again: the innermost is that of the sequence.
    rw [Task.Accounted, traceSeq_cons _ _ hc, h.eval_eq, State.anchored_arises (h.frames hs) harises]
    exact ⟨.cut hq hr List.suffix_rfl id harises (.refl k), hf.append (.of_nothing rfl rfl t)⟩
  | @choice_none _ best k s =>
    intro hbest
    rw [traceChoice]
    refine ⟨.failed Trace.quiet_nil id ?_, .refl g s⟩
    cases best with
    | some f => exact hbest f rfl
    | none =>
      subst hs
      exact .single s.frames k _ _
  | @choice_taken _ _ _ _ _ _ a h ho ih =>
    intro hbest
    obtain ⟨o, t⟩ := a
    rw [traceChoice, h.eval_eq]
    cases o with
    | failed f => exact absurd rfl (ho f)
    | matched | aborted => simpa [Task.Accounted] using ih hs
  | choice_next h _ ih ihr =>
    intro hbest
    obtain ⟨-, -, hf, -⟩ := Accounts.of_failed (ih hs)
    rw [traceChoice, h.eval_eq]
    refine Accounts.resume (ih hs) (ihr (h.frames hs) ?_)
    rintro _ ⟨⟩
    exact .join hbest hf
  | many_more h hlt _ ih ihr =>
    rw [Task.Accounted, traceMany, h.eval_eq]
    dsimp only
    rw [if_pos hlt]
    exact Accounts.after (ih hs) (ihr (h.frames hs))
  | many_idle h hle ih =>
    rw [Task.Accounted, traceMany, h.eval_eq]
    simpa [Task.Accounted, hle] using ih hs
  | many_missing h ih | many_aborted h ih =>
    rw [Task.Accounted, traceMany, h.eval_eq]
    simpa [Task.Accounted] using ih hs
  | @many_done _ _ k _ _ _ h ih =>
    obtain ⟨hq, hr, -, hf⟩ := Accounts.of_failed (ih hs)
    rw [Task.Accounted, traceMany, h.eval_eq]
    exact ⟨by simpa using .matched hq hr (.refl k), by simpa using hf⟩
  | transparent hact _ ih =>
    rw [Task.Accounted, traceRule]
    simp only [hact]
    exact Accounts.leave (ih (enter_frames hs))
  | @acting _ _ _ _ _ _ _ t _ hact h hn ih =>
    obtain ⟨hq, hr, hl, ht⟩ := (Accounts.closeScope (ih (enter_frames hs))).of_matched
    rw [Task.Accounted, traceRule]
    simp only [hact, h.eval_eq, hn]
    exact ⟨.matched (hq.append (Trace.quiet_singleton rfl)) hr hl,
      ht.append (.of_nothing rfl rfl _)⟩
  | @acting_rejected _ i _ k _ _ _ t error hact h he ih =>
    obtain ⟨hq, -, -, ht⟩ := (Accounts.closeScope (ih (enter_frames hs))).of_matched
    rw [Task.Accounted, traceRule]
    simp only [hact, h.eval_eq, he]
    exact ⟨.rejected hq rfl (.refl k), ht.append (.reject g _ i k error)⟩
  | @acting_unmatched _ _ _ _ _ o t hact h ho ih =>
    have ha := Accounts.closeScope (ih (enter_frames hs))
    rw [Task.Accounted, traceRule]
    simp only [hact, h.eval_eq]
    cases o with
    | matched => cases ho
    | failed | aborted => simpa using ha

theorem accounts_of_eval {e : Expr ι} (h : eval g n e k s = some a) :
    Accounts g s.frames k s (trace g n s.frames e k s) a :=
  (runs_of_answer (t := .expr e) h).accounted rfl

/-- What happens in a rule happens among those being matched with it. -/
theorem accounts_of_rule {i : ι} (h : eval g n (.rule i) k s = some a) :
    Accounts g (⟨(g.rule i).name, k.pos⟩ :: s.frames) k s (trace g n s.frames (.rule i) k s) a := by
  cases runs_of_answer (t := .expr (.rule i)) h with
  | rule hrule =>
    rw [trace]
    exact (Accounts.tried _ (hrule.accounted rfl)).unwind _

end Accounted

variable {k : Cursor} {s : State ν ε} {a : Outcome ν × State ν ε}

/-- Where an action rule has matched, its action was asked once, when all else had happened, of
what the body had bound. -/
theorem trace_of_acting {id : ι} {action : Captures ν → Except ε (List ν)} {l : Cursor}
    {t : State ν ε} {items : List (Item ν)} (ha : (g.rule id).action = some action)
    (h : eval g n (.rule id) k s = some (.matched l items, t)) :
    ∃ m i b nodes, Reads g (g.rule id).body k.rest (.matched l.rest i b) ∧
      action ⟨b⟩ = .ok nodes ∧ items = nodes.map .node ∧
      trace g n s.frames (.rule id) k s = (0, .tried (.rule id) k) ::
        (trace g m (⟨(g.rule id).name, k.pos⟩ :: s.frames) (g.rule id).body k
            (s.enter (g.rule id).name k.pos).openScope ++ [(0, .acted id k (action ⟨b⟩))]) := by
  generalize hitems : (Outcome.matched l items, t) = a at h
  cases runs_of_answer (t := .expr (.rule id)) h with
  | rule hrule =>
    cases State.eq_matched_of_unwind hitems.symm
    cases hrule with
    | transparent hact => cases ha.symm.trans hact
    | acting_unmatched _ _ ho => cases ho
    | @acting m _ _ _ _ _ i _ nodes hact hbody hn =>
      cases ha.symm.trans hact
      obtain ⟨_, hr, hagrees⟩ := hbody.sound
      obtain ⟨b, rfl, -, hext, -⟩ := hagrees.of_matched
      obtain ⟨hscope, -⟩ := hext.closeScope
      rw [hscope] at hn
      refine ⟨m, i, b, nodes, hr, hn, rfl, ?_⟩
      rw [trace, traceRule]
      simp only [ha, hbody.eval_eq, hscope, hn]

end Fleet.Peg
