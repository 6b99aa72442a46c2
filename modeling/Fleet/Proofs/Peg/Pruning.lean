import Fleet.Proofs.Peg.Commits
import Fleet.Proofs.Peg.Verdict
/-!
What the commits of a rule table cut off. Where they abort an expression, taking them out may give
it a match; `Prunes` says what is left of the text then. Lists are where such a match comes from:
without commits a list ends before the element that was aborted (`Prunes.listOf`). An expression is
`Final` if there is no match at all; what a rule of that kind makes of a whole text the commits do
not change (`Final.run_ok_iff`).
-/

namespace Fleet.Peg

variable {ι ν ε : Type} {g : Grammar ι ν ε} {e : Expr ι} {es : List (Expr ι)}
  {P Q : List Char → Prop} {cs rest : List Char}

/-- Every match of the expression before the text leaves a rest that `P` holds of. -/
def Leaves (g : Grammar ι ν ε) (e : Expr ι) (P : List Char → Prop) (cs : List Char) : Prop :=
  ∀ ⦃rest items bs⦄, Reads g e cs (.matched rest items bs) → P rest

def Unmatched (g : Grammar ι ν ε) (e : Expr ι) (cs : List Char) : Prop :=
  Leaves g e (fun _ => False) cs

namespace Leaves

theorem imp (h : Leaves g e P cs) (hpq : ∀ rest, P rest → Q rest) : Leaves g e Q cs :=
  fun _ _ _ hr => hpq _ (h hr)

theorem seq_nil (h : P cs) : Leaves g (.seq []) P cs := by
  intro rest items bs hr
  cases hr with
  | seq hr => cases hr with | nil => exact h

/-- What a sequence leaves is what the elements after the first leave of what that leaves. -/
theorem seq_cons (h : Leaves g e Q cs) (hs : ∀ rest, Q rest → Leaves g (.seq es) P rest) :
    Leaves g (.seq (e :: es)) P cs := by
  intro rest items bs hr
  cases hr with
  | seq hr =>
    obtain ⟨mid, _, _, _, _, hfirst, hr, -, -⟩ := ReadsSeq.cons_iff.1 hr
    exact hs mid (h hfirst) (.seq hr)

theorem capture {name : String} (h : Leaves g e P cs) : Leaves g (.capture name e) P cs := by
  intro rest items bs hr
  obtain ⟨_, hr, -⟩ := hr.of_capture
  exact h hr

theorem ignore (h : Leaves g e P cs) : Leaves g (.ignore e) P cs := by
  intro rest items bs hr
  obtain ⟨-, _, hr⟩ := hr.of_ignore
  exact h hr

theorem choice (h : ∀ e ∈ es, Leaves g e P cs) : Leaves g (.choice es) P cs := by
  intro rest items bs hr
  obtain ⟨e, he, hr⟩ := hr.of_choice
  exact h e he hr

/-- What is optional may be passed over. -/
theorem optional (h : Leaves g e P cs) (hcs : P cs) : Leaves g (.optional e) P cs := by
  intro rest items bs hr
  cases hr with
  | optional hr => exact h hr
  | optional_absent => exact hcs

/-- A sequence leaves what its last element does. -/
theorem last (hl : es.getLast? = some e) (h : ∀ cs, Leaves g e P cs) : Leaves g (.seq es) P cs := by
  induction es generalizing cs with
  | nil => cases hl
  | cons e' es ih =>
    cases es with
    | nil =>
      obtain rfl : e' = e := by simpa using hl
      exact (h cs).seq_cons fun _ => .seq_nil
    | cons e'' es =>
      refine .seq_cons (Q := fun _ => True) (fun _ _ _ _ => trivial) fun rest _ => ih ?_
      simpa using hl

theorem rule {i : ι} (h : Leaves g (g.rule i).body P cs) : Leaves g (.rule i) P cs := by
  intro rest items bs hr
  obtain ⟨_, _, hr⟩ := hr.of_rule
  exact h hr

end Leaves

/-! ## Repetitions -/

/-- A repetition of any number of matches, none included, never fails. -/
theorem ReadsMany.not_failed : ¬ ReadsMany g false e cs .failed := by
  induction hn : cs.length using Nat.strongRecOn generalizing cs with
  | ind n ih =>
    intro h
    generalize hr : Result.failed = r at h
    generalize hq : false = q at h
    cases h with
    | more h hl hs =>
      obtain rfl := Result.eq_failed_of_after hr.symm
      exact ih _ (hn ▸ hl) rfl hs
    | missing => cases hq
    | done | idle | aborted => cases hr

theorem ReadsMany.of_aborted {q : Bool} (h : ReadsMany g q e cs .aborted) :
    Reads g e cs .aborted ∨ ∃ mid i b, Reads g e cs (.matched mid i b) ∧
      mid.length < cs.length ∧ ReadsMany g false e mid .aborted := by
  generalize hr : Result.aborted = r at h
  cases h with
  | aborted h => exact .inl h
  | more h hl hs =>
    obtain rfl := Result.eq_aborted_of_after hr.symm
    exact .inr ⟨_, _, _, h, hl, hs⟩
  | done | missing | idle => cases hr

/-- A repetition that takes something each time stops where its element fails. -/
theorem ReadsMany.stops [BEq ι] {items : List (Item ν)} {bs : List (String × Item ν)} {q : Bool}
    (he : Consumes g e) (h : ReadsMany g q e cs (.matched rest items bs)) :
    Reads g e rest .failed := by
  induction hn : cs.length using Nat.strongRecOn generalizing cs q items bs with
  | ind n ih =>
    rcases h.of_matched with ⟨hf, -, rfl, -⟩ | ⟨hidle, -⟩ | ⟨_, _, _, _, _, -, hl, hs, -⟩
    · exact hf
    · exact absurd (he.shorter hidle) (Nat.lt_irrefl _)
    · exact ih _ (hn ▸ hl) hs rfl

theorem Leaves.zeroOrMore [BEq ι] (he : Consumes g e) :
    Leaves g (.zeroOrMore e) (Reads g e · .failed) cs := by
  intro rest items bs hr
  cases hr with
  | zeroOrMore hr => exact hr.stops he

/-- After a commit a sequence matches or is aborted. -/
theorem ReadsSeq.not_failed : ¬ ReadsSeq g true es cs .failed := by
  induction es generalizing cs with
  | nil => nofun
  | cons e es ih =>
    intro h
    by_cases hc : e = .commit
    · subst hc
      exact ih h.of_commit
    · generalize hr : Result.failed = r at h
      cases h with
      | commit => exact hc rfl
      | cons _ _ hs =>
        obtain rfl := Result.eq_failed_of_after hr.symm
        exact ih hs
      | committed | aborted => cases hr

/-- Where a sequence fails, and its first element does not, it fails after that. -/
theorem ReadsSeq.failed_after [BEq ι] {c : Bool} {mid : List Char} {items : List (Item ν)}
    {bs : List (String × Item ν)} (h : ReadsSeq g c (e :: es) cs .failed)
    (hm : Reads g e cs (.matched mid items bs)) : ReadsSeq g c es mid .failed := by
  by_cases hc : e = .commit
  · subst hc
    exact absurd h.of_commit ReadsSeq.not_failed
  · rcases h.of_failed hc with hf | ⟨_, _, _, hm', hs⟩
    · cases hf.unique hm
    · cases hm'.unique hm
      exact hs

namespace Unmatched

theorem leaves (h : Unmatched g e cs) : Leaves g e P cs := Leaves.imp h fun _ => False.elim

theorem of_failed [BEq ι] (h : Reads g e cs .failed) : Unmatched g e cs := by
  intro rest items bs hr
  cases h.unique hr

theorem seq (h : Unmatched g e cs) : Unmatched g (.seq (e :: es)) cs :=
  Leaves.seq_cons h fun _ => False.elim

theorem capture {name : String} (h : Unmatched g e cs) : Unmatched g (.capture name e) cs :=
  Leaves.capture h

/-- What is optional and not there is passed over. -/
theorem optional (h : Unmatched g e cs) (hs : Leaves g (.seq es) P cs) :
    Leaves g (.seq (.optional e :: es)) P cs := by
  refine .seq_cons (Q := (· = cs)) (h.leaves.optional rfl) fun rest hr => ?_
  subst hr
  exact hs

/-- Where there is no element a repetition is over. -/
theorem many {items : List (Item ν)} {bs : List (String × Item ν)} {q : Bool}
    (hu : Unmatched g e cs) (h : ReadsMany g q e cs (.matched rest items bs)) : rest = cs := by
  rcases h.of_matched with ⟨-, -, hr, -⟩ | ⟨h, -⟩ | ⟨_, _, _, _, _, h, -⟩
  · exact hr
  · exact (hu h).elim
  · exact (hu h).elim

theorem zeroOrMore (hu : Unmatched g e cs) (hcs : P cs) : Leaves g (.zeroOrMore e) P cs := by
  intro rest items bs hr
  cases hr with
  | zeroOrMore hr => exact hu.many hr ▸ hcs

/-- A rule does not match where its body does not. -/
theorem rule {i : ι} (h : Unmatched g (g.rule i).body cs) : Unmatched g (.rule i) cs :=
  Leaves.rule h

end Unmatched

/-! ## Expressions with and without commits -/

/-- Where the commits abort the expression, whatever it matches without them leaves such a rest. -/
structure Prunes (g : Grammar ι ν ε) (e : Expr ι) (P : List Char → Prop) : Prop where
  settled : Settled g e
  leaves : ∀ ⦃cs⦄, Reads g e cs .aborted → Leaves g.uncommitted e.uncommitted P cs

/-- Where the commits abort the expression, there is no match without them. -/
def Final (g : Grammar ι ν ε) (e : Expr ι) : Prop := Prunes g e fun _ => False

/-- The elements of a sequence, as `Prunes` is for one expression, whether or not there was a
commit before. -/
structure PrunesSeq (g : Grammar ι ν ε) (es : List (Expr ι)) (P : List Char → Prop) : Prop where
  settled : Settled g (.seq es)
  leaves : ∀ ⦃c cs⦄, ReadsSeq g c es cs .aborted →
    Leaves g.uncommitted (Expr.seq es).uncommitted P cs

theorem Steady.prunes (h : Steady g e) (hs : Settled g e) : Prunes g e P :=
  ⟨hs, fun cs ha => absurd ha (h cs)⟩

namespace PrunesSeq

theorem nil : PrunesSeq g [] P := ⟨nofun, fun _ _ ha => by cases ha⟩

theorem commit (hs : PrunesSeq g es P) : PrunesSeq g (.commit :: es) P :=
  ⟨.cons nofun hs.settled, fun _ _ ha => hs.leaves ha.of_commit⟩

theorem seq (h : PrunesSeq g es P) : Prunes g (.seq es) P := by
  refine ⟨h.settled, fun cs ha => ?_⟩
  cases ha with
  | seq ha => exact h.leaves ha

end PrunesSeq

namespace Prunes

theorem imp (h : Prunes g e P) (hpq : ∀ rest, P rest → Q rest) : Prunes g e Q :=
  ⟨h.settled, fun _ ha => (h.leaves ha).imp hpq⟩

theorem capture {name : String} (h : Prunes g e P) : Prunes g (.capture name e) P := by
  refine ⟨h.settled, fun cs ha => ?_⟩
  cases ha with
  | capture_unmatched ha => exact (h.leaves ha).capture

/-- What is optional may be passed over without commits, if it fails then. -/
theorem optional (h : Prunes g e P) (habsent : ∀ cs, Reads g e cs .aborted → P cs) :
    Prunes g (.optional e) P := by
  refine ⟨h.settled, fun cs ha => ?_⟩
  cases ha with
  | optional ha => exact (h.leaves ha).optional (habsent cs ha)

end Prunes

section Lists
variable {i element : ι} {sep : Expr ι} {name : String} {make : List ν → Except ε ν}

/-- There is no list where there is no first element. -/
theorem Unmatched.listOf (hi : g.rule i = .listOf name element sep make)
    (h : Unmatched g (.rule element) cs) : Unmatched g (.rule i) cs := by
  refine .rule ?_
  rw [hi]
  exact h.capture.seq

/-- What fails is the first element, if it is not a separator and one more. -/
theorem Reads.first_failed (hi : g.rule i = .listOf name element sep make)
    (h : Reads g (.rule i) cs .failed) : Reads g (.rule element) cs .failed := by
  have hbody := Reads.rule_failed_iff.1 h
  rw [hi] at hbody
  cases hbody with
  | seq h =>
    rcases h.of_failed (e := .capture "first" (.rule element)) nofun with h | ⟨_, _, _, -, h⟩
    · cases h with
      | capture_unmatched h => exact h
    · cases Reads.of_single (e := .capture "rest" _) nofun (.seq h) (.inl rfl) with
      | capture_unmatched h =>
        cases h with
        | zeroOrMore h => exact absurd h ReadsMany.not_failed

theorem Steady.ignore (h : Steady g e) : Steady g (.ignore e) := by
  intro cs ha
  cases ha with
  | ignore_unmatched ha => exact h cs ha

end Lists

section Unique
variable [BEq ι] {i element : ι} {sep : Expr ι} {name : String} {make : List ν → Except ε ν}

/-- A match with commits is the only one without them. -/
theorem Reads.rest_eq (hg : g.Settled) (he : Settled g e) {rest' : List Char}
    {items items' : List (Item ν)} {bs bs' : List (String × Item ν)}
    (h : Reads g e cs (.matched rest items bs))
    (h' : Reads g.uncommitted e.uncommitted cs (.matched rest' items' bs')) : rest' = rest := by
  cases h'.unique (h.uncommitted hg he (by simp))
  rfl

theorem Reads.not_failed_of_aborted (h : Reads g e cs .aborted) : ¬ Reads g e cs .failed := by
  intro hf
  cases h.unique hf

/-- Where a rule fails without commits it was not its action that rejected a match. -/
theorem Reads.body_aborted (hg : g.Settled) (ha : Reads g (.rule i) cs .aborted)
    (hf : Reads g.uncommitted (.rule i) cs .failed) : Reads g (g.rule i).body cs .aborted := by
  cases ha with
  | transparent _ h => exact h
  | acting_rejected _ h =>
    cases (Reads.rule_failed_iff.1 hf).unique (h.uncommitted hg (hg i) (by simp))
  | acting_unmatched _ h => exact h

theorem Reads.unmatched (hg : g.Settled) (he : Settled g e) (h : Reads g e cs .failed) :
    Unmatched g.uncommitted e.uncommitted cs :=
  .of_failed (h.uncommitted hg he (by simp))

/-- Where a sequence is aborted, and fails without commits, an element that never aborts is not to
blame. -/
theorem ReadsSeq.next_of_failed (hg : g.Settled) (he : Steady g e) (hs : Settled g e)
    (hc : e ≠ .commit) (ha : ReadsSeq g false (e :: es) cs .aborted)
    (hf : Reads g.uncommitted (Expr.seq (e :: es)).uncommitted cs .failed) :
    ∃ mid items bs, Reads g e cs (.matched mid items bs) ∧ ReadsSeq g false es mid .aborted ∧
      Reads g.uncommitted (Expr.seq es).uncommitted mid .failed := by
  rcases ha.of_aborted hc with ⟨hfalse, -⟩ | ha | ⟨mid, items, bs, hm, ha⟩
  · cases hfalse
  · exact absurd ha (he cs)
  · refine ⟨mid, items, bs, hm, ha, ?_⟩
    have hm' := hm.uncommitted hg hs (by simp)
    simp only [Expr.uncommitted, uncommittedItems_cons hc] at hf
    cases hf with
    | seq hf =>
      rcases hf.of_failed (uncommitted_ne_commit hc) with hf | ⟨_, _, _, hfirst, hf⟩
      · cases hf.unique hm'
      · cases hfirst.unique hm'
        exact .seq hf

namespace PrunesSeq

/-- An element may leave a rest that stops the match of the elements after it. -/
theorem cons (hg : g.Settled) (h : Prunes g e Q)
    (hnext : ∀ mid, Q mid → Leaves g.uncommitted (Expr.seq es).uncommitted P mid)
    (hs : PrunesSeq g es P) : PrunesSeq g (e :: es) P := by
  refine ⟨h.settled.cons hs.settled, fun c cs ha => ?_⟩
  by_cases hc : e = .commit
  · subst hc
    exact hs.leaves ha.of_commit
  · simp only [Expr.uncommitted, uncommittedItems_cons hc]
    rcases ha.of_aborted hc with ⟨-, hf⟩ | ha | ⟨mid, i, b, hfirst, ha⟩
    · exact (hf.unmatched hg h.settled).seq.leaves
    · exact .seq_cons (h.leaves ha) hnext
    · refine .seq_cons (Q := (· = mid)) (fun _ _ _ h' => hfirst.rest_eq hg h.settled h') ?_
      intro rest hrest
      subst hrest
      exact hs.leaves ha

theorem last (hg : g.Settled) (h : Prunes g e P) : PrunesSeq g [e] P :=
  .cons hg h (fun _ hm => .seq_nil hm) .nil

/-- An element that leaves nothing. -/
theorem next (hg : g.Settled) (h : Final g e) (hs : PrunesSeq g es P) : PrunesSeq g (e :: es) P :=
  .cons hg h (fun _ => False.elim) hs

end PrunesSeq

namespace Prunes

/-- A choice of two, the second of which matches nothing where the first is aborted. -/
theorem orElse (hg : g.Settled) {e' : Expr ι} (h : Prunes g e P) (h' : Prunes g e' P)
    (hother : ∀ cs, Reads g e cs .aborted → Unmatched g.uncommitted e'.uncommitted cs) :
    Prunes g (.choice [e, e']) P := by
  refine ⟨h.settled.cons (h'.settled.cons nofun), fun cs ha rest items bs hr => ?_⟩
  obtain ⟨x, hx, hr⟩ := hr.of_choice
  obtain rfl | rfl : x = e.uncommitted ∨ x = e'.uncommitted := by
    simpa [Expr.uncommittedAll] using hx
  · cases ha with
    | choice_taken ha => exact h.leaves ha hr
    | choice_next hf => exact (hf.unmatched hg h.settled hr).elim
  · cases ha with
    | choice_taken ha => exact (hother cs ha hr).elim
    | choice_next _ ha =>
      cases ha with
      | choice_taken ha => exact h'.leaves ha hr
      | choice_next _ ha => cases ha

/-- What an action rejects with commits it rejects without them. -/
theorem rule (hg : g.Settled) (h : Prunes g (g.rule i).body P) : Prunes g (.rule i) P := by
  refine ⟨nofun, fun cs ha rest items bs hr => ?_⟩
  cases ha with
  | transparent hact ha => exact h.leaves ha (hr.of_transparent hact)
  | acting_rejected hact hbody he =>
    obtain ⟨-, _, _, _, hbody', hn, -⟩ := Reads.of_acting (g := g.uncommitted) hact hr
    cases hbody'.unique (hbody.uncommitted hg (hg i) (by simp))
    rw [he] at hn
    cases hn
  | acting_unmatched hact ha =>
    obtain ⟨-, _, _, _, hbody, -, -⟩ := Reads.of_acting (g := g.uncommitted) hact hr
    exact h.leaves ha hbody

/-- A repetition goes on up to the element that is aborted, and without commits it ends there or
after it. -/
theorem zeroOrMore (hg : g.Settled) (h : Prunes g e P)
    (hstop : ∀ cs, P cs → Unmatched g.uncommitted e.uncommitted cs)
    (hfailed : ∀ cs, Reads g e cs .aborted → Reads g.uncommitted e.uncommitted cs .failed → P cs) :
    Prunes g (.zeroOrMore e) P := by
  have hmany : ∀ n cs, cs.length = n → ∀ rest items bs, ReadsMany g false e cs .aborted →
      ReadsMany g.uncommitted false e.uncommitted cs (.matched rest items bs) → P rest := by
    intro n
    induction n using Nat.strongRecOn with
    | ind n ih =>
      intro cs hn rest items bs ha hr
      rcases ha.of_aborted with ha | ⟨mid, i, b, hfirst, hl, ha⟩
      · rcases hr.of_matched with ⟨hf, -, rfl, -⟩ | ⟨hr, rfl⟩ | ⟨mid, _, _, _, _, hr, -, hs, -⟩
        · exact hfailed _ ha hf
        · exact h.leaves ha hr
        · have hmid := h.leaves ha hr
          obtain rfl := (hstop mid hmid).many hs
          exact hmid
      · have hfirst' := hfirst.uncommitted hg h.settled (by simp)
        rcases hr.of_matched with ⟨hf, -, rfl, -⟩ | ⟨hr, -⟩ | ⟨_, _, _, _, _, hr, -, hs, -⟩
        · cases hf.unique hfirst'
        · cases hr.unique hfirst'
          exact absurd hl (Nat.lt_irrefl _)
        · cases hr.unique hfirst'
          exact ih _ (hn ▸ hl) _ rfl _ _ _ ha hs
  refine ⟨h.settled, fun cs ha rest items bs hr => ?_⟩
  cases ha with
  | zeroOrMore ha => cases hr with | zeroOrMore hr => exact hmany _ cs rfl _ _ _ ha hr

/-- A list ends before an element that fails without commits. -/
theorem listOf (hg : g.Settled) (hi : g.rule i = .listOf name element sep make)
    (hsep : Steady g sep) (hs : Settled g sep) (h : Prunes g (.rule element) P)
    (hstop : ∀ cs, P cs →
      Leaves g.uncommitted sep.uncommitted (Unmatched g.uncommitted (.rule element)) cs)
    (hfailed : ∀ cs mid items bs, Reads g sep cs (.matched mid items bs) →
      Reads g (.rule element) mid .aborted →
      Reads g.uncommitted (.rule element) mid .failed → P cs) : Prunes g (.rule i) P := by
  have hstop' : ∀ cs, P cs →
      Unmatched g.uncommitted (.seq [.ignore sep.uncommitted, .rule element]) cs :=
    fun cs hp => .seq_cons (hstop cs hp).ignore fun _ hu => hu.seq
  have hpart : Prunes g (.seq [.ignore sep, .rule element]) P :=
    (PrunesSeq.cons hg (hsep.ignore.prunes hs) (fun _ => False.elim) (.last hg h)).seq
  have hmany : Prunes g (.zeroOrMore (.seq [.ignore sep, .rule element])) P := by
    refine hpart.zeroOrMore hg hstop' fun cs ha hf => ?_
    cases ha with
    | seq ha =>
      obtain ⟨mid, _, _, hm, ha, hf⟩ :=
        ha.next_of_failed (e := .ignore sep) hg hsep.ignore hs nofun hf
      obtain ⟨-, _, hm⟩ := hm.of_ignore
      exact hfailed cs mid _ _ hm (Reads.of_single nofun (.seq ha) (.inr rfl))
        (hf.of_single nofun (.inl rfl))
  refine rule hg ?_
  rw [hi]
  refine (PrunesSeq.cons hg h.capture (fun mid hm => ?_) (.last hg hmany.capture)).seq
  refine .seq_cons (.capture ((hstop' mid hm).zeroOrMore hm)) fun rest hr => .seq_nil hr

end Prunes

/-- The commits change nothing about the texts that a rule matches as a whole, nor about the nodes
that it makes of them. -/
theorem Final.run_ok_iff (h : Final g (.rule i)) (hg : g.Settled) (hr : g.NotLeftRecursive)
    (hr' : g.uncommitted.NotLeftRecursive) (text : String) (nodes : List ν) :
    (g.run i text).result = .ok nodes ↔ (g.uncommitted.run i text).result = .ok nodes := by
  rw [Peg.run_ok_iff hr, Peg.run_ok_iff hr']
  constructor
  · intro hp
    obtain ⟨items, bs, hm, hn⟩ := hp
    exact ⟨items, bs, hm.uncommitted hg h.settled (by simp), hn⟩
  · intro hp
    obtain ⟨items, bs, hm, hn⟩ := hp
    obtain ⟨r, hr⟩ := exists_reads hr (.rule i) text.toList
    by_cases ha : r = .aborted
    · subst ha
      exact (h.leaves hr hm).elim
    · cases hm.unique (hr.uncommitted hg h.settled ha)
      exact ⟨items, bs, hr, hn⟩

end Unique

end Fleet.Peg
