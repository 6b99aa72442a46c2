import Fleet.Peg.Uncommitted
import Fleet.Proofs.Peg.Termination
/-!
What becomes of a match when the commits are taken out of a rule table. Matches and failures stay
as they are (`Reads.uncommitted`); only what was aborted may turn into something else. Lookaheads
would tell, since to them an abort is a failure: they have to look for what never aborts.
-/

namespace Fleet.Peg

variable {ι ν ε : Type} {g : Grammar ι ν ε} {e : Expr ι} {es : List (Expr ι)}
  {cs rest : List Char} {r : Result ν} {items : List (Item ν)} {bs : List (String × Item ν)}
  {c q : Bool}

/-- The expression aborts before no text. -/
def Steady (g : Grammar ι ν ε) (e : Expr ι) : Prop := ∀ cs, ¬ Reads g e cs .aborted

mutual

/-- What the lookaheads in an expression look for. -/
def Expr.lookaheads : Expr ι → List (Expr ι)
  | .not e => e :: e.lookaheads
  | .seq items | .choice items => lookaheadsAll items
  | .oneOrMore e | .zeroOrMore e | .optional e | .ignore e | .capture _ e => e.lookaheads
  | .literal _ | .oneOf _ | .any | .commit | .rule _ => []

def Expr.lookaheadsAll : List (Expr ι) → List (Expr ι)
  | [] => []
  | e :: items => e.lookaheads ++ lookaheadsAll items

end

/-- No lookahead in the expression meets an abort, those in its rules apart. -/
def Settled (g : Grammar ι ν ε) (e : Expr ι) : Prop := ∀ x ∈ e.lookaheads, Steady g x

def Grammar.Settled (g : Grammar ι ν ε) : Prop := ∀ i, Peg.Settled g (g.rule i).body

namespace Settled

theorem head (h : Settled g (.seq (e :: es))) : Settled g e :=
  fun x hx => h x (List.mem_append_left _ hx)

theorem tail (h : Settled g (.seq (e :: es))) : Settled g (.seq es) :=
  fun x hx => h x (List.mem_append_right _ hx)

theorem cons (h : Settled g e) (hs : Settled g (.seq es)) : Settled g (.seq (e :: es)) :=
  fun x hx => (List.mem_append.1 hx).elim (h x) (hs x)

end Settled

mutual

/-- A match or a failure takes place without the commits, too. -/
theorem Reads.uncommitted (hg : g.Settled) {e : Expr ι} {cs : List Char} {r : Result ν} :
    Reads g e cs r → Settled g e → r ≠ .aborted → Reads g.uncommitted e.uncommitted cs r
  | .literal text rest, _, _ => .literal text rest
  | .literal_failed h, _, _ => .literal_failed h
  | .oneOf rest h, _, _ => .oneOf rest h
  | .oneOf_failed h, _, _ => .oneOf_failed h
  | .any c rest, _, _ => .any c rest
  | .any_failed, _, _ => .any_failed
  | .seq h, he, hr => .seq (h.uncommitted hg he hr)
  | .choice_none cs, _, _ => .choice_none cs
  | .choice_taken h hf, he, hr => .choice_taken (h.uncommitted hg (Settled.head he) hr) hf
  | .choice_next h hn, he, hr =>
    .choice_next (h.uncommitted hg (Settled.head he) nofun)
      (hn.uncommitted hg (Settled.tail he) hr)
  | .oneOrMore h, he, hr => .oneOrMore (h.uncommitted hg he hr)
  | .zeroOrMore h, he, hr => .zeroOrMore (h.uncommitted hg he hr)
  | .optional h hf, he, hr => .optional (h.uncommitted hg he hr) hf
  | .optional_absent h, he, _ => .optional_absent (h.uncommitted hg he nofun)
  | .not_failed h, he, _ =>
    .not_failed (h.uncommitted hg (fun x hx => he x (List.mem_cons_of_mem _ hx)) nofun)
  | .not h (.inl hf), he, _ =>
    .not (h.uncommitted hg (fun x hx => he x (List.mem_cons_of_mem _ hx)) (hf ▸ nofun)) (.inl hf)
  | .not h (.inr ha), he, _ => absurd (ha ▸ h) (he _ (List.mem_cons_self ..) _)
  | .commit cs, _, _ => .commit cs
  | .ignore h, he, _ => .ignore (h.uncommitted hg he nofun)
  | .ignore_unmatched h hu, he, hr => .ignore_unmatched (h.uncommitted hg he hr) hu
  | .capture h, he, _ => .capture (h.uncommitted hg he nofun)
  | .capture_unmatched h hu, he, hr => .capture_unmatched (h.uncommitted hg he hr) hu
  | .transparent ha h, _, hr => .transparent ha (h.uncommitted hg (hg _) hr)
  | .acting ha h hn, _, _ => .acting ha (h.uncommitted hg (hg _) nofun) hn
  | .acting_rejected _ _ _, _, hr => absurd rfl hr
  | .acting_unmatched ha h hu, _, hr => .acting_unmatched ha (h.uncommitted hg (hg _) hr) hu

theorem ReadsSeq.uncommitted (hg : g.Settled) {c : Bool} {es : List (Expr ι)} {cs : List Char}
    {r : Result ν} : ReadsSeq g c es cs r → Settled g (.seq es) → r ≠ .aborted →
      ReadsSeq g.uncommitted false (Expr.uncommittedItems es) cs r
  | .nil _ cs, _, _ => .nil _ cs
  | .commit h, he, hr => h.uncommitted hg he.tail hr
  | .cons hc h hs, he, hr => by
    rw [uncommittedItems_cons hc]
    exact .cons (uncommitted_ne_commit hc) (h.uncommitted hg he.head nofun)
      (hs.uncommitted hg he.tail fun ha => hr (by rw [ha]; rfl))
  | .failed hc h, he, _ => by
    rw [uncommittedItems_cons hc]
    exact .failed (uncommitted_ne_commit hc) (h.uncommitted hg he.head nofun)
  | .committed _ _, _, hr => absurd rfl hr
  | .aborted _ _, _, hr => absurd rfl hr

theorem ReadsMany.uncommitted (hg : g.Settled) {q : Bool} {e : Expr ι} {cs : List Char}
    {r : Result ν} : ReadsMany g q e cs r → Settled g e → r ≠ .aborted →
      ReadsMany g.uncommitted q e.uncommitted cs r
  | .done h, he, _ => .done (h.uncommitted hg he nofun)
  | .missing h, he, _ => .missing (h.uncommitted hg he nofun)
  | .idle h, he, _ => .idle (h.uncommitted hg he nofun)
  | .more h hl hs, he, hr => .more (h.uncommitted hg he nofun) hl
    (hs.uncommitted hg he fun ha => hr (by rw [ha]; rfl))
  | .aborted _, _, hr => absurd rfl hr

end

/-! ## Expressions that never abort -/

mutual

/-- Nothing in the expression aborts, if no rule aborts that `ok` holds of. -/
def Expr.steady (ok : ι → Bool) : Expr ι → Bool
  | .literal _ | .oneOf _ | .any | .not _ => true
  | .commit => false
  | .seq items | .choice items => allSteady ok items
  | .oneOrMore e | .zeroOrMore e | .optional e | .ignore e | .capture _ e => e.steady ok
  | .rule id => ok id

def Expr.allSteady (ok : ι → Bool) : List (Expr ι) → Bool
  | [] => true
  | e :: items => e.steady ok && allSteady ok items

end

/-- The rules that `ok` holds of use no others, and no action of theirs rejects a match. -/
def Grammar.SteadyRules (g : Grammar ι ν ε) (ok : ι → Bool) : Prop :=
  ∀ i, ok i = true → (g.rule i).body.steady ok = true ∧
    ∀ action, (g.rule i).action = some action → ∀ c, ∃ nodes, action c = .ok nodes

variable {ok : ι → Bool}

mutual

theorem Reads.ne_aborted (hok : g.SteadyRules ok) {e : Expr ι} {cs : List Char} {r : Result ν} :
    Reads g e cs r → e.steady ok = true → r ≠ .aborted
  | .literal .., _ | .literal_failed _, _ | .oneOf .., _ | .oneOf_failed _, _ | .any .., _
  | .any_failed, _ | .choice_none _, _ | .optional_absent _, _ | .not_failed _, _ | .not .., _
  | .commit _, _ | .ignore _, _ | .capture _, _ | .acting .., _ => nofun
  | .seq h, he => h.ne_aborted hok he rfl
  | .choice_taken h _, he => h.ne_aborted hok (Bool.and_eq_true_iff.1 he).1
  | .choice_next _ h, he => h.ne_aborted hok (Bool.and_eq_true_iff.1 he).2
  | .oneOrMore h, he | .zeroOrMore h, he => h.ne_aborted hok he
  | .optional h _, he | .ignore_unmatched h _, he | .capture_unmatched h _, he =>
    h.ne_aborted hok he
  | .transparent _ h, he | .acting_unmatched _ h _, he => h.ne_aborted hok (hok _ he).1
  | .acting_rejected ha _ hr, he => by
    obtain ⟨nodes, hn⟩ := (hok _ he).2 _ ha _
    rw [hn] at hr
    cases hr

theorem ReadsSeq.ne_aborted (hok : g.SteadyRules ok) {c : Bool} {es : List (Expr ι)}
    {cs : List Char} {r : Result ν} :
    ReadsSeq g c es cs r → Expr.allSteady ok es = true → c = false → r ≠ .aborted
  | .nil .., _, _ | .failed .., _, _ => nofun
  | .commit _, he, _ => Bool.noConfusion he
  | .cons _ _ hs, he, hc => fun ha =>
    hs.ne_aborted hok (Bool.and_eq_true_iff.1 he).2 hc (Result.eq_aborted_of_after ha)
  | .aborted _ h, he, _ => h.ne_aborted hok (Bool.and_eq_true_iff.1 he).1

theorem ReadsMany.ne_aborted (hok : g.SteadyRules ok) {q : Bool} {e : Expr ι} {cs : List Char}
    {r : Result ν} : ReadsMany g q e cs r → e.steady ok = true → r ≠ .aborted
  | .done _, _ | .missing _, _ | .idle _, _ => nofun
  | .more _ _ hs, he => fun ha => hs.ne_aborted hok he (Result.eq_aborted_of_after ha)
  | .aborted h, he => h.ne_aborted hok he

end

theorem Grammar.SteadyRules.steady (hok : g.SteadyRules ok) (he : e.steady ok = true) :
    Steady g e := fun _ h => h.ne_aborted hok he rfl

theorem Grammar.SteadyRules.settled (hok : g.SteadyRules ok)
    (he : e.lookaheads.all (·.steady ok) = true) : Peg.Settled g e :=
  fun x hx => hok.steady (List.all_eq_true.1 he x hx)

/-- What never aborts is not changed by taking out the commits. -/
theorem Steady.reads_iff [BEq ι] (he : Steady g e) (hg : g.Settled) (hr : g.NotLeftRecursive)
    (hs : Settled g e) : Reads g.uncommitted e.uncommitted cs r ↔ Reads g e cs r := by
  have hne {r : Result ν} (h : Reads g e cs r) : r ≠ .aborted := by
    intro ha
    exact he cs (ha ▸ h)
  constructor
  · intro h
    obtain ⟨r', h'⟩ := exists_reads hr e cs
    obtain rfl := h.unique (h'.uncommitted hg hs (hne h'))
    exact h'
  · exact fun h => h.uncommitted hg hs (hne h)

end Fleet.Peg
