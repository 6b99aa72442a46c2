import Fleet.Proofs.Peg.Budget
/-!
What is answered to a whole text. A run is left unfinished just where no number of steps would
finish it (`run_unfinished_iff`). A rule whose body matches all of the text is answered as its action
decides (`run_result_of_reads`), and nodes are those of a match of all of it (`run_ok_iff`).
-/

namespace Fleet.Peg
open Fleet.Text

variable {ι ν ε : Type} [BEq ι] {g : Grammar ι ν ε} {id : ι} {text : String}

theorem conclude_matched {s : State ν ε} {l : Cursor} (hr : s.rejection = none)
    (hend : l.atEnd = true) (items : List (Item ν)) :
    conclude (.matched l items, s) = .ok (items.filterMap Item.node?) := by
  simp [conclude, hr, hend]

theorem conclude_rejected {s : State ν ε} {error : ε} (hr : s.rejection = some error)
    (o : Outcome ν) : conclude (o, s) = .error (.rejected error) := by
  simp [conclude, hr]

/-- Text left over is a failure like any other. -/
theorem conclude_leftOver {s : State ν ε} {l : Cursor} (hr : s.rejection = none)
    (hend : l.atEnd = false) (items : List (Item ν)) :
    conclude (.matched l items, s) =
      let e := Failure.single s.path l .endOfText "end of input"
      .error (.malformed (Failure.join (s.record e).furthest e)) := by
  simp [conclude, hr, hend]

theorem conclude_failed {s : State ν ε} (hr : s.rejection = none) (e : Failure) :
    conclude (.failed e, s) = .error (.malformed (Failure.join s.furthest e)) := by
  simp [conclude, hr]

theorem conclude_aborted {s : State ν ε} (hr : s.rejection = none) (e : Failure) :
    conclude (.aborted e, s) = .error (.malformed e) := by
  simp [conclude, hr]

theorem conclude_rejected_iff {o : Outcome ν} {s : State ν ε} {error : ε} :
    conclude (o, s) = .error (.rejected error) ↔ s.rejection = some error := by
  cases hr : s.rejection with
  | some refused => simp [conclude_rejected hr]
  | none =>
    refine iff_of_false ?_ nofun
    cases o with
    | failed e => simp [conclude_failed hr]
    | aborted e => simp [conclude_aborted hr]
    | matched l items =>
      cases hend : l.atEnd with
      | true => simp [conclude_matched hr hend]
      | false => simp [conclude_leftOver hr hend]

theorem conclude_ne_unfinished (a : Outcome ν × State ν ε) : conclude a ≠ .error .unfinished := by
  obtain ⟨o, s⟩ := a
  intro h
  simp only [conclude] at h
  split at h
  · cases h
  · split at h <;> cases h
  all_goals cases h

/-- Matching the rule against the text comes to an end, in however many steps. -/
def Grammar.Terminates (g : Grammar ι ν ε) (i : ι) (text : String) : Prop :=
  ∃ n, (eval g n (.rule i) (.ofText text) .start).isSome

/-- The answer within the budget is what the run tells. -/
theorem Grammar.Terminates.run (h : g.Terminates id text) :
    ∃ a, eval g (g.budget text.toList.length) (.rule id) (.ofText text) .start = some a ∧
      g.run id text = ⟨conclude a, a.2.rejections.reverse⟩ := by
  obtain ⟨n, hn⟩ := h
  obtain ⟨a, ha⟩ := Option.isSome_iff_exists.1 hn
  have hbudget : eval g (g.budget text.toList.length) (.rule id) (.ofText text) .start = some a :=
    eval_of_budget ha
  refine ⟨a, hbudget, ?_⟩
  unfold Grammar.run
  simp only [Cursor.ofText] at hbudget ⊢
  rw [hbudget]

/-- The run is left unfinished just where matching has no end, whatever the budget is. -/
theorem run_unfinished_iff :
    (g.run id text).result = .error .unfinished ↔ ¬ g.Terminates id text := by
  refine ⟨fun h hends => ?_, fun h => ?_⟩
  · obtain ⟨a, -, ha⟩ := hends.run
    rw [ha] at h
    exact conclude_ne_unfinished a h
  · have hnone : eval g (g.budget text.toList.length) (.rule id) (.ofText text) .start = none :=
      Option.not_isSome_iff_eq_none.1 fun hs => h ⟨_, hs⟩
    unfold Grammar.run
    simp only [Cursor.ofText] at hnone ⊢
    rw [hnone]

/-- Without left recursion every expression is answered at every place and in every state. -/
theorem exists_eval (hg : g.NotLeftRecursive) (e : Expr ι) (k : Cursor) (s : State ν ε) :
    ∃ n a, eval g n e k s = some a := by
  obtain ⟨r, hr⟩ := exists_reads hg e k.rest
  obtain ⟨n, a, ha, -⟩ := eval_of_reads hr s
  exact ⟨n, a, ha⟩

/-- Without left recursion the step budget plays no part in the answer. -/
theorem run_result_of_eval (hg : g.NotLeftRecursive) {n : Nat} {a : Outcome ν × State ν ε}
    (h : eval g n (.rule id) (.ofText text) .start = some a) :
    (g.run id text).result = conclude a := by
  obtain ⟨b, hb⟩ := Option.isSome_iff_exists.1 (eval_budget hg id (.ofText text) .start)
  have hab : b = a := eval_unique hb h
  unfold Grammar.run
  simp only [hb, hab]

theorem run_ne_unfinished (hg : g.NotLeftRecursive) (id : ι) (text : String) :
    (g.run id text).result ≠ .error .unfinished := by
  obtain ⟨a, ha⟩ := Option.isSome_iff_exists.1 (eval_budget hg id (.ofText text) .start)
  rw [run_result_of_eval hg ha]
  exact conclude_ne_unfinished a

/-- The action has the last word on a match of the whole text. -/
theorem run_result_of_reads (hg : g.NotLeftRecursive) {action : Captures ν → Except ε (List ν)}
    (hact : (g.rule id).action = some action) {items : List (Item ν)}
    {bs : List (String × Item ν)}
    (h : Reads g (g.rule id).body text.toList (.matched [] items bs)) :
    (g.run id text).result = (action ⟨bs⟩).mapError .rejected := by
  obtain ⟨n, _, hbody, ha⟩ :=
    h.answered.expr (.ofText text) (State.start.enter (g.rule id).name Position.start).openScope rfl
  cases ha with
  | @matched l _ _ _ t hl hcs ht hrej =>
    have hend : l.atEnd = true := by simp [Cursor.atEnd, hcs]
    obtain ⟨hscope, -⟩ := ht.closeScope
    cases hb : action ⟨bs⟩ with
    | ok nodes =>
      have hrun := Runs.rule (.acting hact hbody (hscope ▸ hb))
      have hnodes : (nodes.map (Item.node (ν := ν))).filterMap Item.node? = nodes := by
        simp [List.filterMap_map, Function.comp_def, Item.node?]
      rw [run_result_of_eval hg hrun.eval_eq]
      exact (conclude_matched (by simp [hrej rfl]) hend _).trans (congrArg _ hnodes)
    | error error =>
      have hrun := Runs.rule (.acting_rejected hact hbody (hscope ▸ hb))
      rw [run_result_of_eval hg hrun.eval_eq]
      exact conclude_rejected rfl _

/-- Nodes are those of a match of the whole text. -/
theorem reads_of_run_ok {nodes : List ν} (h : (g.run id text).result = .ok nodes) :
    ∃ items bs, Reads g (.rule id) text.toList (.matched [] items bs) ∧
      nodes = items.filterMap Item.node? := by
  unfold Grammar.run at h
  simp only at h
  split at h
  · cases h
  · next o s hev =>
    obtain ⟨r, hr, ha, -⟩ := reads_of_eval hev
    simp only [conclude] at h
    cases ha with
    | @matched l _ items bs _ hl hcs =>
      split at h
      · cases h
      · next heq =>
        cases heq
        split at h
        · next hend =>
          cases h
          have hnil : l.rest = [] := by simpa [Cursor.atEnd] using hend
          exact ⟨items, bs, hnil ▸ hcs ▸ hr, rfl⟩
        · cases h
      all_goals cases h
    | failed | aborted =>
      split at h
      · cases h
      · next heq => cases heq
      all_goals cases h

theorem run_ok_iff (hg : g.NotLeftRecursive) {nodes : List ν} :
    (g.run id text).result = .ok nodes ↔
      ∃ items bs, Reads g (.rule id) text.toList (.matched [] items bs) ∧
        nodes = items.filterMap Item.node? := by
  refine ⟨reads_of_run_ok, fun h => ?_⟩
  obtain ⟨items, bs, hr, rfl⟩ := h
  obtain ⟨n, _, he, ha⟩ := eval_of_reads (k := .ofText text) hr .start
  rw [run_result_of_eval hg he]
  cases ha with
  | matched hl hcs _ hrej =>
    exact conclude_matched (hrej rfl) (by simp [Cursor.atEnd, hcs]) items

/-- A match that leaves some of the text is not good enough. -/
theorem run_malformed_of_reads (hg : g.NotLeftRecursive) {c : Char} {rest : List Char}
    {items : List (Item ν)} {bs : List (String × Item ν)}
    (h : Reads g (.rule id) text.toList (.matched (c :: rest) items bs)) :
    ∃ f, (g.run id text).result = .error (.malformed f) := by
  obtain ⟨n, _, he, ha⟩ := eval_of_reads (k := .ofText text) h .start
  rw [run_result_of_eval hg he]
  cases ha with
  | matched _ hcs _ hrej =>
    exact ⟨_, conclude_leftOver (hrej rfl) (by simp [Cursor.atEnd, hcs]) items⟩

end Fleet.Peg
