import Fleet.Proofs.Peg.Derivation
import Fleet.Proofs.Peg.Verdict
/-!
Why a match is aborted. `Aborts` follows an expression to the place where that comes about: an
action refuses what its rule's body has matched, or an element fails behind a commit. Every abort is
for one of these reasons (`Reads.aborts`), and a run is answered with a refusal just if it comes to
one (`run_rejected_iff`). What refuses is a rule that can be come to at all
(`Aborts.refused_among`).
-/

namespace Fleet.Peg
open Fleet.Text

variable {ι ν ε : Type} {g : Grammar ι ν ε} {e : Expr ι} {es before after : List (Expr ι)}
  {cs mid rest : List Char} {items : List (Item ν)} {bs : List (String × Item ν)} {q c : Bool}
  {reason : Option ε}

/-- Matches one after the other, each of which takes something. -/
inductive Repeats (g : Grammar ι ν ε) (e : Expr ι) : List Char → List Char → Prop where
  | refl (cs : List Char) : Repeats g e cs cs
  | step {cs mid rest : List Char} {items : List (Item ν)} {bs : List (String × Item ν)}
      (h : Reads g e cs (.matched mid items bs)) (hl : mid.length < cs.length)
      (hs : Repeats g e mid rest) : Repeats g e cs rest

/-- The match is aborted, with what an action refused or, behind a commit, for no such reason. -/
inductive Aborts (g : Grammar ι ν ε) : Expr ι → List Char → Option ε → Prop where
  | refused {id : ι} {action : Captures ν → Except ε (List ν)} {cs rest : List Char}
      {items : List (Item ν)} {bs : List (String × Item ν)} {error : ε}
      (ha : (g.rule id).action = some action)
      (h : Reads g (g.rule id).body cs (.matched rest items bs)) (he : action ⟨bs⟩ = .error error) :
      Aborts g (.rule id) cs (some error)
  | cut {before after : List (Expr ι)} {e : Expr ι} {cs mid : List Char} {items : List (Item ν)}
      {bs : List (String × Item ν)} (hb : ReadsSeq g false before cs (.matched mid items bs))
      (hc : .commit ∈ before) (h : Reads g e mid .failed) :
      Aborts g (.seq (before ++ e :: after)) cs none
  | seq {before after : List (Expr ι)} {e : Expr ι} {cs mid : List Char} {items : List (Item ν)}
      {bs : List (String × Item ν)} {reason : Option ε}
      (hb : ReadsSeq g false before cs (.matched mid items bs)) (h : Aborts g e mid reason) :
      Aborts g (.seq (before ++ e :: after)) cs reason
  | choice {before after : List (Expr ι)} {e : Expr ι} {cs : List Char} {reason : Option ε}
      (hb : ∀ x ∈ before, Reads g x cs .failed) (h : Aborts g e cs reason) :
      Aborts g (.choice (before ++ e :: after)) cs reason
  | oneOrMore {e : Expr ι} {cs mid : List Char} {reason : Option ε} (hb : Repeats g e cs mid)
      (h : Aborts g e mid reason) : Aborts g (.oneOrMore e) cs reason
  | zeroOrMore {e : Expr ι} {cs mid : List Char} {reason : Option ε} (hb : Repeats g e cs mid)
      (h : Aborts g e mid reason) : Aborts g (.zeroOrMore e) cs reason
  | optional {e : Expr ι} {cs : List Char} {reason : Option ε} (h : Aborts g e cs reason) :
      Aborts g (.optional e) cs reason
  | ignore {e : Expr ι} {cs : List Char} {reason : Option ε} (h : Aborts g e cs reason) :
      Aborts g (.ignore e) cs reason
  | capture {name : String} {e : Expr ι} {cs : List Char} {reason : Option ε}
      (h : Aborts g e cs reason) : Aborts g (.capture name e) cs reason
  | rule {id : ι} {cs : List Char} {reason : Option ε} (h : Aborts g (g.rule id).body cs reason) :
      Aborts g (.rule id) cs reason

/-! ## Every abort has a reason -/

/-- One of the elements is aborted, or fails behind a commit, after a match of those before it. -/
def AbortsWithin (g : Grammar ι ν ε) (c : Bool) (es : List (Expr ι)) (cs : List Char) : Prop :=
  ∃ before e after mid items bs, es = before ++ e :: after ∧
    ReadsSeq g c before cs (.matched mid items bs) ∧
    ((∃ reason, Aborts g e mid reason) ∨ ((c = true ∨ .commit ∈ before) ∧ Reads g e mid .failed))

/-- One of the alternatives is aborted, after a failure of those before it. -/
def AbortsAmong (g : Grammar ι ν ε) (es : List (Expr ι)) (cs : List Char) : Prop :=
  ∃ before e after reason, es = before ++ e :: after ∧
    (∀ x ∈ before, Reads g x cs .failed) ∧ Aborts g e cs reason

theorem AbortsWithin.cons (h : Reads g e cs (.matched mid items bs))
    (hs : AbortsWithin g c es mid) : AbortsWithin g c (e :: es) cs := by
  obtain ⟨before, x, after, _, _, _, rfl, hb, hx⟩ := hs
  refine ⟨e :: before, x, after, _, _, _, rfl, .next h hb, ?_⟩
  rcases hx with hx | ⟨hc, hf⟩
  · exact .inl hx
  · exact .inr ⟨hc.imp_right (List.mem_cons_of_mem e), hf⟩

theorem AbortsWithin.commit (hs : AbortsWithin g true es cs) :
    AbortsWithin g c (.commit :: es) cs := by
  obtain ⟨before, x, after, _, _, _, rfl, hb, hx⟩ := hs
  refine ⟨.commit :: before, x, after, _, _, _, rfl, .commit hb, ?_⟩
  rcases hx with hx | ⟨-, hf⟩
  · exact .inl hx
  · exact .inr ⟨.inr (by simp), hf⟩

theorem AbortsWithin.seq (h : AbortsWithin g false es cs) :
    ∃ reason, Aborts g (.seq es) cs reason := by
  obtain ⟨before, x, after, _, _, _, rfl, hb, hx⟩ := h
  rcases hx with ⟨reason, hx⟩ | ⟨hc, hf⟩
  · exact ⟨reason, .seq hb hx⟩
  · exact ⟨none, .cut hb (by simpa using hc) hf⟩

theorem AbortsAmong.next (hf : Reads g e cs .failed) (h : AbortsAmong g es cs) :
    AbortsAmong g (e :: es) cs := by
  obtain ⟨before, x, after, reason, rfl, hb, hx⟩ := h
  exact ⟨e :: before, x, after, reason, rfl, List.forall_mem_cons.2 ⟨hf, hb⟩, hx⟩

theorem AbortsAmong.choice (h : AbortsAmong g es cs) :
    ∃ reason, Aborts g (.choice es) cs reason := by
  obtain ⟨before, x, after, reason, rfl, hb, hx⟩ := h
  exact ⟨reason, .choice hb hx⟩

/-- The reason for an abort, and for a choice the alternatives that failed before. -/
structure Reasoned (g : Grammar ι ν ε) (e : Expr ι) (cs : List Char) : Prop where
  expr : ∃ reason, Aborts g e cs reason
  choice : ∀ es, e = .choice es → AbortsAmong g es cs

theorem Reasoned.of_expr (h : ∃ reason, Aborts g e cs reason) (he : ∀ es, e ≠ .choice es) :
    Reasoned g e cs :=
  ⟨h, fun es hes => absurd hes (he es)⟩

theorem Reasoned.of_choice (h : AbortsAmong g es cs) : Reasoned g (.choice es) cs :=
  ⟨h.choice, fun _ hes => Expr.choice.inj hes ▸ h⟩

theorem Reasoned.map {e' : Expr ι} (h : Reasoned g e cs)
    (hmap : ∀ {reason}, Aborts g e cs reason → Aborts g e' cs reason)
    (he : ∀ es, e' ≠ .choice es) : Reasoned g e' cs :=
  let ⟨reason, hx⟩ := h.expr
  .of_expr ⟨reason, hmap hx⟩ he

mutual

theorem Reads.reasoned {e : Expr ι} {cs : List Char} {r : Result ν} :
    Reads g e cs r → r = .aborted → Reasoned g e cs
  | .literal .., ha | .literal_failed _, ha | .oneOf .., ha | .oneOf_failed _, ha | .any .., ha
  | .any_failed, ha | .choice_none _, ha | .optional_absent _, ha | .not_failed _, ha | .not .., ha
  | .commit _, ha | .ignore _, ha | .capture _, ha | .acting .., ha => by cases ha
  | .seq h, ha => .of_expr (h.reasoned ha).seq nofun
  | .choice_taken h _, ha =>
    let ⟨reason, hx⟩ := (h.reasoned ha).expr
    .of_choice ⟨[], _, _, reason, rfl, by simp, hx⟩
  | .choice_next hf h, ha => .of_choice (((h.reasoned ha).choice _ rfl).next hf)
  | .oneOrMore h, ha =>
    let ⟨_, reason, hb, hx⟩ := h.reasoned ha
    .of_expr ⟨reason, .oneOrMore hb hx⟩ nofun
  | .zeroOrMore h, ha =>
    let ⟨_, reason, hb, hx⟩ := h.reasoned ha
    .of_expr ⟨reason, .zeroOrMore hb hx⟩ nofun
  | .optional h _, ha => (h.reasoned ha).map .optional nofun
  | .ignore_unmatched h _, ha => (h.reasoned ha).map .ignore nofun
  | .capture_unmatched h _, ha => (h.reasoned ha).map .capture nofun
  | .transparent _ h, ha => (h.reasoned ha).map .rule nofun
  | .acting_unmatched _ h _, ha => (h.reasoned ha).map .rule nofun
  | .acting_rejected hact h he, _ => .of_expr ⟨_, .refused hact h he⟩ nofun

theorem ReadsSeq.reasoned {c : Bool} {es : List (Expr ι)} {cs : List Char} {r : Result ν} :
    ReadsSeq g c es cs r → r = .aborted → AbortsWithin g c es cs
  | .nil .., ha | .failed .., ha => by cases ha
  | .commit h, ha => (h.reasoned ha).commit
  | .cons _ h hs, ha => .cons h (hs.reasoned (Result.eq_aborted_of_after ha))
  | .committed _ h, _ => ⟨[], _, _, _, _, _, rfl, .nil _ _, .inr ⟨.inl rfl, h⟩⟩
  | .aborted _ h, ha => ⟨[], _, _, _, _, _, rfl, .nil _ _, .inl (h.reasoned ha).expr⟩

theorem ReadsMany.reasoned {q : Bool} {e : Expr ι} {cs : List Char} {r : Result ν} :
    ReadsMany g q e cs r → r = .aborted → ∃ mid reason, Repeats g e cs mid ∧ Aborts g e mid reason
  | .done _, ha | .missing _, ha | .idle _, ha => by cases ha
  | .more h hl hs, ha =>
    let ⟨mid, reason, hb, hx⟩ := hs.reasoned (Result.eq_aborted_of_after ha)
    ⟨mid, reason, .step h hl hb, hx⟩
  | .aborted h, ha =>
    let ⟨reason, hx⟩ := (h.reasoned ha).expr
    ⟨_, reason, .refl _, hx⟩

end

theorem Reads.aborts (h : Reads g e cs .aborted) : ∃ reason, Aborts g e cs reason :=
  (h.reasoned rfl).expr

/-! ## Where a refusal comes from -/

mutual

/-- The rules that the expression refers to. -/
def Expr.refers : Expr ι → List ι
  | .rule id => [id]
  | .seq items | .choice items => refersAll items
  | .oneOrMore e | .zeroOrMore e | .optional e | .not e | .ignore e | .capture _ e => e.refers
  | .literal _ | .oneOf _ | .any | .commit => []

def Expr.refersAll : List (Expr ι) → List ι
  | [] => []
  | e :: items => e.refers ++ refersAll items

end

theorem mem_refersAll {id : ι} (h : id ∈ e.refers) :
    id ∈ Expr.refersAll (before ++ e :: after) := by
  induction before with
  | nil => exact List.mem_append_left _ h
  | cons x before ih => exact List.mem_append_right _ ih

/-- Where the rules that an expression refers to refer to each other alone, it is one of them that
refuses its match. -/
theorem Aborts.refused_among {ids : List ι} {error : ε} (h : Aborts g e cs (some error))
    (hids : ∀ i ∈ ids, ∀ j ∈ (g.rule i).body.refers, j ∈ ids) (he : ∀ i ∈ e.refers, i ∈ ids) :
    ∃ i ∈ ids, ∃ action at' rest items bs, (g.rule i).action = some action ∧
      Reads g (g.rule i).body at' (.matched rest items bs) ∧ action ⟨bs⟩ = .error error := by
  generalize hr : some error = reason at h
  induction h with
  | @refused id _ _ _ _ _ _ ha h hrefuses =>
    cases hr
    exact ⟨id, he id (by simp [Expr.refers]), _, _, _, _, _, ha, h, hrefuses⟩
  | cut => cases hr
  | seq _ _ ih | choice _ _ ih => exact ih (fun i hi => he i (mem_refersAll hi)) hr
  | oneOrMore _ _ ih | zeroOrMore _ _ ih => exact ih he hr
  | optional _ ih | ignore _ ih | capture _ ih => exact ih he hr
  | @rule id _ _ _ ih => exact ih (hids id (he id (by simp [Expr.refers]))) hr

/-! ## Lists -/

section Lists
variable {α : Type} {as : List α} {lang : α → Language} {node : α → ν} {separator : Language}
  {Follow : List Char → Prop} {id element : ι} {sep : Expr ι} {w s : List Char} {name : String}
  {make : List ν → Except ε ν}

/-- Elements each with a separator before it are passed over. -/
theorem ReadsEach.repeats (h : ReadsEach g element sep lang node separator Follow as)
    (hrest : Follow rest) (ht : Language.concat ((as.map lang).map (Language.append separator)) w) :
    Repeats g (.seq [.ignore sep, .rule element]) (w ++ rest) rest := by
  induction as generalizing w with
  | nil => obtain rfl := ht; exact .refl rest
  | cons a as ih =>
    obtain ⟨_, u, rfl, ⟨s, t, rfl, hs, ha⟩, hu⟩ := ht
    obtain ⟨hfirst, hlen⟩ := h.next hs ha (h.tail.follow_others hrest hu)
    rw [List.append_assoc, List.append_assoc]
    exact .step hfirst hlen (ih h.tail hu)

/-- A sequence is aborted in its second element. -/
theorem Aborts.seq_second {x : Expr ι} (h : Reads g x cs (.matched mid items bs))
    (hx : Aborts g e mid reason) : Aborts g (.seq (x :: e :: after)) cs reason := by
  have hb : ReadsSeq g false [x] cs (.matched mid (items ++ []) (bs ++ [])) := .next h (.nil _ _)
  exact show Aborts g (.seq ([x] ++ e :: after)) cs reason from .seq hb hx

/-- A list is aborted in its first element. -/
theorem Aborts.list_first (hid : g.rule id = .listOf name element sep make)
    (h : Aborts g (.rule element) cs reason) : Aborts g (.rule id) cs reason := by
  refine .rule ?_
  rw [hid]
  exact show Aborts g (.seq ([] ++ .capture "first" (.rule element) :: _)) cs reason from
    .seq (.nil _ _) (.capture h)

/-- A list is aborted in an element that comes after others. -/
theorem Aborts.list_next (hid : g.rule id = .listOf name element sep make)
    (hread : ReadsEach g element sep lang node separator Follow as) (hne : as ≠ [])
    (ht : Language.joined separator (as.map lang) w) (hs : separator s)
    (hsep : Takes g sep (s ++ rest) rest []) (h : Aborts g (.rule element) rest reason) :
    Aborts g (.rule id) (w ++ (s ++ rest)) reason := by
  obtain ⟨a, as, rfl⟩ := List.exists_cons_of_ne_nil hne
  rw [List.map_cons, Language.joined_cons] at ht
  obtain ⟨t, u, rfl, ha, hu⟩ := ht
  have hfollow : Follow (s ++ rest) := hread.follow s rest hs
  have hfirst := hread.reads a (by simp) t (u ++ (s ++ rest)) ha
    (hread.tail.follow_others hfollow hu)
  have hothers := hread.tail.repeats hfollow hu
  obtain ⟨items, hi, -⟩ := hsep
  have hlast : Aborts g (.seq [.ignore sep, .rule element]) (s ++ rest) reason :=
    .seq_second (.ignore hi) h
  rw [List.append_assoc]
  refine .rule ?_
  rw [hid]
  exact .seq_second (.capture hfirst) (.capture (.zeroOrMore hothers hlast))

end Lists

/-! ## What the matcher answers -/

/-- A task ends with an abort, and this is what is pending then. -/
def EndsFor [BEq ι] (g : Grammar ι ν ε) (reason : Option ε) (task : Task ι) (k : Cursor)
    (s : State ν ε) : Prop :=
  ∃ n f t, Runs g n task k s (.aborted f, t) ∧ t.rejection = reason

section Eval
variable [BEq ι] {k : Cursor} {s : State ν ε}

/-- A match leads to a place and a state in which nothing is pending. -/
theorem Reads.exists_next (h : Reads g e cs (.matched mid items bs)) (hk : k.rest = cs)
    (hs : s.rejection = none) :
    ∃ n l t, Runs g n (.expr e) k s (.matched l items, t) ∧ l.rest = mid ∧ t.rejection = none ∧
      k.Reaches l := by
  obtain ⟨n, _, he, ha⟩ := h.answered.expr k s hk
  cases ha with
  | matched hreach hl _ hr => exact ⟨n, _, _, he, hl, hr hs, hreach⟩

theorem Reads.exists_failure (h : Reads g e cs .failed) (hk : k.rest = cs)
    (hs : s.rejection = none) :
    ∃ n f t, Runs g n (.expr e) k s (.failed f, t) ∧ t.rejection = none := by
  obtain ⟨n, _, he, ha⟩ := h.answered.expr k s hk
  cases ha with
  | failed _ hr => exact ⟨n, _, _, he, hr hs⟩

namespace EndsFor

/-- The elements before make no difference, but for a commit among them. -/
theorem seq_past (hb : ReadsSeq g c before cs (.matched mid items bs))
    (hnext : ∀ c' l t, (c = true ∨ .commit ∈ before → c' = true) → l.rest = mid →
      t.rejection = none → EndsFor g reason (.seq es c') l t)
    (hk : k.rest = cs) (hs : s.rejection = none) :
    EndsFor g reason (.seq (before ++ es) c) k s := by
  induction before generalizing c cs items bs k s with
  | nil =>
    cases hb with
    | nil => exact hnext c k s (fun h => h.resolve_right (by simp)) hk hs
  | cons x before ih =>
    by_cases hx : x = .commit
    · subst hx
      obtain ⟨n, f, t, h, ht⟩ :=
        ih hb.of_commit (fun c' l t hc => hnext c' l t fun _ => hc (.inl rfl)) hk hs
      exact ⟨_, f, t, .seq_commit h, ht⟩
    · obtain ⟨_, _, _, _, _, hfirst, hmore, -, -⟩ := ReadsSeq.cons_iff.1 hb
      obtain ⟨n, l, t, he, hl, ht, -⟩ := hfirst.exists_next hk hs
      obtain ⟨m, f, u, h, hu⟩ := ih hmore
        (fun c' l t hc => hnext c' l t fun h =>
          hc (h.imp_right fun h => (List.mem_cons.1 h).resolve_left (Ne.symm hx))) hl ht
      exact ⟨_, f, u,
        .seq_cons hx (he.mono (Nat.le_max_left n m)) (h.mono (Nat.le_max_right n m)), hu⟩

/-- Nor do the alternatives before one. -/
theorem choice_past (hb : ∀ x ∈ before, Reads g x cs .failed)
    (hnext : ∀ b t, t.rejection = none → EndsFor g reason (.choice es b) k t)
    (hk : k.rest = cs) (hs : s.rejection = none) (b : Option Failure) :
    EndsFor g reason (.choice (before ++ es) b) k s := by
  induction before generalizing b s with
  | nil => exact hnext b s hs
  | cons x before ih =>
    obtain ⟨n, f, t, he, ht⟩ := (hb x (by simp)).exists_failure hk hs
    obtain ⟨m, f', u, h, hu⟩ := ih (fun y hy => hb y (by simp [hy])) ht (some (Failure.join b f))
    exact ⟨_, f', u, .choice_next (he.mono (Nat.le_max_left n m)) (h.mono (Nat.le_max_right n m)),
      hu⟩

/-- Nor do the matches of a repetition before the last one. -/
theorem many_past (hb : Repeats g e cs mid)
    (hnext : ∀ l t, l.rest = mid → t.rejection = none → EndsFor g reason (.expr e) l t)
    (hk : k.rest = cs) (hs : s.rejection = none) (q : Bool) :
    EndsFor g reason (.many e q) k s := by
  induction hb generalizing k s q with
  | refl =>
    obtain ⟨n, f, t, h, ht⟩ := hnext k s hk hs
    exact ⟨_, f, t, .many_aborted h, ht⟩
  | step hfirst hlen _ ih =>
    obtain ⟨n, l, t, he, hl, ht, hreach⟩ := hfirst.exists_next hk hs
    obtain ⟨m, f, u, h, hu⟩ := ih hnext hl ht false
    have hoff : k.offset < l.offset := by rwa [hreach.offset_lt_iff, hl, hk]
    exact ⟨_, f, u,
      .many_more (he.mono (Nat.le_max_left n m)) hoff (h.mono (Nat.le_max_right n m)), hu⟩

/-- What is unwound is not what is pending. -/
theorem unwind {task : Task ι} (h : EndsFor g reason task k s)
    (he : ∀ {n a}, Runs g n task k s a →
      Runs g (n + 1) (.expr e) k s (State.unwind s.scope.mark a)) :
    EndsFor g reason (.expr e) k s := by
  obtain ⟨n, f, t, h, ht⟩ := h
  exact ⟨n + 1, f, t.resetScope s.scope.mark, he h, ht⟩

end EndsFor

theorem Aborts.endsFor (h : Aborts g e cs reason) (hk : k.rest = cs) (hs : s.rejection = none) :
    EndsFor g reason (.expr e) k s := by
  induction h generalizing k s with
  | @refused id action cs rest items bs error hact h he =>
    obtain ⟨n, _, hbody, ha⟩ := h.answered.expr k (s.enter (g.rule id).name k.pos).openScope hk
    cases ha with
    | matched _ _ ht _ =>
      obtain ⟨hscope, -⟩ := ht.closeScope
      have hrule : EndsFor g (some error) (.rule id) k s :=
        ⟨_, _, _, .acting_rejected hact hbody (hscope ▸ he), rfl⟩
      exact hrule.unwind .rule
  | @cut before after e cs mid items bs hb hc hf =>
    refine EndsFor.unwind (.seq_past hb (fun c' l t hc' hl ht => ?_) hk hs) .seq
    obtain rfl : c' = true := hc' (.inr hc)
    obtain ⟨n, f, u, he, hu⟩ := hf.exists_failure hl ht
    have hne : e ≠ .commit := by
      intro he
      subst he
      cases hf
    exact ⟨_, _, _, .seq_committed hne he, hu⟩
  | @seq before after e cs mid items bs reason hb hx ih =>
    refine EndsFor.unwind (.seq_past hb (fun c' l t hc' hl ht => ?_) hk hs) .seq
    obtain ⟨n, f, u, he, hu⟩ := ih hl ht
    have hne : e ≠ .commit := by
      intro he
      subst he
      cases hx
    exact ⟨_, f, u, .seq_aborted hne he, hu⟩
  | choice hb _ ih =>
    refine EndsFor.unwind (.choice_past hb (fun b t ht => ?_) hk hs none) .choice
    obtain ⟨n, f, u, he, hu⟩ := ih hk ht
    exact ⟨_, f, u, .choice_taken he nofun, hu⟩
  | oneOrMore hb _ ih =>
    exact EndsFor.unwind (.many_past hb (fun l t hl ht => ih hl ht) hk hs true) .oneOrMore
  | zeroOrMore hb _ ih =>
    exact EndsFor.unwind (.many_past hb (fun l t hl ht => ih hl ht) hk hs false) .zeroOrMore
  | optional _ ih =>
    obtain ⟨n, f, t, h, ht⟩ := ih hk hs
    exact ⟨_, f, t, .optional h nofun, ht⟩
  | ignore _ ih =>
    obtain ⟨n, f, t, h, ht⟩ := ih hk hs
    exact ⟨_, f, t, .ignore_unmatched h rfl, ht⟩
  | capture _ ih =>
    obtain ⟨n, f, t, h, ht⟩ := ih hk hs
    exact ⟨_, f, t, .capture_unmatched h rfl, ht⟩
  | @rule id _ reason _ ih =>
    suffices hrule : EndsFor g reason (.rule id) k s from hrule.unwind .rule
    cases hact : (g.rule id).action with
    | none =>
      obtain ⟨n, f, t, h, ht⟩ := @ih k (s.enter (g.rule id).name k.pos) hk hs
      exact ⟨_, f, _, .transparent hact h, ht⟩
    | some action =>
      obtain ⟨n, f, t, h, ht⟩ := @ih k (s.enter (g.rule id).name k.pos).openScope hk hs
      exact ⟨_, f, _, .acting_unmatched hact h rfl, by simpa using ht⟩

/-- A run is answered with a refusal just if it comes to one. -/
theorem run_rejected_iff (hg : g.NotLeftRecursive) {id : ι} {text : String} {error : ε} :
    (g.run id text).result = .error (.rejected error) ↔
      Aborts g (.rule id) text.toList (some error) := by
  constructor
  · intro h
    obtain ⟨r, hr⟩ := exists_reads hg (.rule id) text.toList
    obtain ⟨n, _, he, ha⟩ := eval_of_reads (k := .ofText text) hr .start
    rw [run_result_of_eval hg he] at h
    have hpending := conclude_rejected_iff.1 h
    cases ha with
    | matched _ _ _ hrej | failed _ hrej => cases hpending.symm.trans (hrej rfl)
    | aborted =>
      obtain ⟨reason, hx⟩ := hr.aborts
      obtain ⟨m, f, u, hu, rfl⟩ := hx.endsFor (k := .ofText text) (s := .start) rfl rfl
      cases eval_unique he hu.eval_eq
      exact hpending ▸ hx
  · intro h
    obtain ⟨n, f, t, he, ht⟩ := h.endsFor (k := .ofText text) (s := .start) rfl rfl
    rw [run_result_of_eval hg he.eval_eq]
    exact conclude_rejected ht _

end Eval

end Fleet.Peg
