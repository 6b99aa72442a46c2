import Fleet.Peg.LeftRecursion
import Fleet.Proofs.Peg.Completeness
/-!
How much of a text a match takes. It leaves an end of the text (`Reads.suffix`), and a shorter one
where the expression is of those that consume (`Consumes.shorter`).
-/

namespace Fleet.Peg
open Fleet.Text

variable {ι ν ε : Type} {g : Grammar ι ν ε} {e : Expr ι} {es : List (Expr ι)}
  {cs rest : List Char} {items : List (Item ν)} {bs : List (String × Item ν)} {c q : Bool}

/-- A choice matches as one of its alternatives does. -/
theorem Reads.of_choice (h : Reads g (.choice es) cs (.matched rest items bs)) :
    ∃ e ∈ es, Reads g e cs (.matched rest items bs) := by
  induction es with
  | nil => cases h
  | cons e es ih =>
    cases h with
    | choice_taken h => exact ⟨e, by simp, h⟩
    | choice_next _ h =>
      obtain ⟨e', he', h'⟩ := ih h
      exact ⟨e', by simp [he'], h'⟩

theorem Reads.of_transparent {id : ι} {r : Result ν} (ha : (g.rule id).action = none)
    (h : Reads g (.rule id) cs r) : Reads g (g.rule id).body cs r := by
  cases h with
  | transparent _ h => exact h
  | acting ha' | acting_rejected ha' | acting_unmatched ha' => rw [ha] at ha'; cases ha'

/-- A match of an action rule is one of its body that the action makes nodes of. -/
theorem Reads.of_acting {id : ι} {action : Captures ν → Except ε (List ν)}
    (ha : (g.rule id).action = some action)
    (h : Reads g (.rule id) cs (.matched rest items bs)) :
    bs = [] ∧ ∃ i b nodes, Reads g (g.rule id).body cs (.matched rest i b) ∧
      action ⟨b⟩ = .ok nodes ∧ items = nodes.map .node := by
  cases h with
  | transparent ha' => rw [ha] at ha'; cases ha'
  | acting ha' h hn =>
    obtain rfl := Option.some.inj (ha.symm.trans ha')
    exact ⟨rfl, _, _, _, h, hn, rfl⟩
  | acting_unmatched _ _ hr => simp at hr

variable [BEq ι]

/-- A match leaves the end of the text that the matcher's cursor is left with. -/
theorem Agrees.suffix {k : Cursor} {s : State ν ε} {a : Outcome ν × State ν ε}
    (h : Agrees k s (.matched rest items bs) a) : rest <:+ k.rest := by
  cases h with
  | matched hk hl => exact hl ▸ hk.suffix

/-- An expression has one result before a text. -/
theorem Reads.unique {r r' : Result ν} (h : Reads g e cs r) (h' : Reads g e cs r') : r = r' := by
  obtain ⟨n, a, ha, hr⟩ := eval_of_reads (k := ⟨cs, .start⟩) h .start
  obtain ⟨m, b, hb, hr'⟩ := eval_of_reads (k := ⟨cs, .start⟩) h' .start
  obtain rfl := eval_unique ha hb
  exact hr.unique hr'

/-- A lookahead for what must not come next takes nothing where there is no such match. -/
theorem Reads.of_not (h : Reads g (.not e) cs (.matched rest items bs)) :
    rest = cs ∧ items = [] ∧ bs = [] ∧
      ∀ rest' items' bs', ¬ Reads g e cs (.matched rest' items' bs') := by
  cases h with
  | not h hr =>
    refine ⟨rfl, rfl, rfl, fun _ _ _ h' => ?_⟩
    obtain rfl := h.unique h'
    simp at hr

theorem Reads.suffix (h : Reads g e cs (.matched rest items bs)) : rest <:+ cs := by
  obtain ⟨n, a, -, ha⟩ := eval_of_reads (k := ⟨cs, .start⟩) h .start
  exact ha.suffix

theorem ReadsSeq.suffix (h : ReadsSeq g c es cs (.matched rest items bs)) : rest <:+ cs := by
  obtain ⟨n, a, -, ha⟩ := h.evaluates ⟨cs, .start⟩ .start rfl
  exact ha.suffix

theorem ReadsMany.suffix (h : ReadsMany g q e cs (.matched rest items bs)) : rest <:+ cs := by
  obtain ⟨n, a, -, ha⟩ := h.evaluates ⟨cs, .start⟩ .start rfl
  exact ha.suffix

theorem ReadsSeq.shorter (h : ReadsSeq g c es cs (.matched rest items bs)) (he : e ∈ es)
    (hc : ∀ {cs rest items bs}, Reads g e cs (.matched rest items bs) → rest.length < cs.length) :
    rest.length < cs.length := by
  induction es generalizing cs items bs with
  | nil => cases he
  | cons e' es ih =>
    obtain ⟨_, _, _, _, _, h, hs, -, -⟩ := ReadsSeq.cons_iff.1 h
    rcases List.mem_cons.1 he with rfl | he
    · exact Nat.lt_of_le_of_lt hs.suffix.length_le (hc h)
    · exact Nat.lt_of_lt_of_le (ih hs he) h.suffix.length_le

theorem Consumes.shorter (hc : Consumes g e) (h : Reads g e cs (.matched rest items bs)) :
    rest.length < cs.length := by
  induction hc generalizing cs rest items bs with
  | @literal text ht =>
    cases h with
    | literal =>
      have : text.toList ≠ [] := fun h => ht (String.toList_inj.1 h)
      have := List.length_pos_iff.2 this
      simp only [List.length_append]
      omega
  | oneOf => cases h with | oneOf => simp
  | any => cases h with | any => simp
  | seq he _ ih => cases h with | seq h => exact h.shorter he ih
  | choice _ ih =>
    obtain ⟨e, he, h⟩ := h.of_choice
    exact ih e he h
  | oneOrMore _ ih =>
    cases h with
    | oneOrMore h =>
      rcases h.of_matched with ⟨-, hq, -⟩ | ⟨h, -⟩ | ⟨_, _, _, _, _, -, hl, hm, -⟩
      · cases hq
      · exact absurd (ih h) (Nat.lt_irrefl _)
      · exact Nat.lt_of_le_of_lt hm.suffix.length_le hl
  | ignore _ ih =>
    obtain ⟨-, _, h⟩ := h.of_ignore
    exact ih h
  | capture name _ ih =>
    obtain ⟨_, h, -⟩ := h.of_capture
    exact ih h
  | rule _ ih =>
    obtain ⟨_, _, h⟩ := h.of_rule
    exact ih h

end Fleet.Peg
