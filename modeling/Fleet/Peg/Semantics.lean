import Fleet.Peg.Grammar
/-!
What matching means, said without a state: a relation between an expression, the text before it
and one of three results. It knows of no rule stack, no marks and no failure reports.
-/

namespace Fleet.Peg

variable {ι ν ε : Type}

/-- `bindings` are those that the match adds to the scope of the action rule around it. -/
inductive Result (ν : Type) where
  | matched (rest : List Char) (items : List (Item ν)) (bindings : List (String × Item ν))
  | failed
  | aborted

/-- What a match before another one adds to its result. -/
def Result.after (items : List (Item ν)) (bindings : List (String × Item ν)) :
    Result ν → Result ν
  | matched rest more others => matched rest (items ++ more) (bindings ++ others)
  | r => r

@[simp] theorem Result.after_matched (rest : List Char) (items more : List (Item ν))
    (bs others : List (String × Item ν)) :
    (Result.matched rest more others).after items bs =
      .matched rest (items ++ more) (bs ++ others) := rfl

/-- What a match is after another one, it is by itself. -/
theorem Result.eq_matched_of_after {r : Result ν} {rest : List Char} {items first : List (Item ν)}
    {bs bs₀ : List (String × Item ν)} (h : r.after first bs₀ = .matched rest items bs) :
    ∃ more others, r = .matched rest more others ∧ items = first ++ more ∧ bs = bs₀ ++ others := by
  cases r with
  | matched rest' more others =>
    simp only [Result.after, Result.matched.injEq] at h
    obtain ⟨rfl, rfl, rfl⟩ := h
    exact ⟨more, others, rfl, rfl, rfl⟩
  | failed | aborted => cases h

/-- A match before it makes no difference to what is none. -/
theorem Result.eq_failed_of_after {r : Result ν} {first : List (Item ν)}
    {bs₀ : List (String × Item ν)} (h : r.after first bs₀ = .failed) : r = .failed := by
  cases r with
  | failed => rfl
  | matched | aborted => cases h

theorem Result.eq_aborted_of_after {r : Result ν} {first : List (Item ν)}
    {bs₀ : List (String × Item ν)} (h : r.after first bs₀ = .aborted) : r = .aborted := by
  cases r with
  | aborted => rfl
  | matched | failed => cases h

mutual

inductive Reads (g : Grammar ι ν ε) : Expr ι → List Char → Result ν → Prop where
  | literal (text : String) (rest : List Char) :
      Reads g (.literal text) (text.toList ++ rest) (.matched rest [.text text] [])
  | literal_failed {text : String} {cs : List Char} (h : ¬ text.toList <+: cs) :
      Reads g (.literal text) cs .failed
  | oneOf {cls : CharClass} {c : Char} (rest : List Char) (h : cls.contains c = true) :
      Reads g (.oneOf cls) (c :: rest) (.matched rest [.text c.toString] [])
  | oneOf_failed {cls : CharClass} {cs : List Char} (h : cs.head?.any cls.contains = false) :
      Reads g (.oneOf cls) cs .failed
  | any (c : Char) (rest : List Char) :
      Reads g .any (c :: rest) (.matched rest [.text c.toString] [])
  | any_failed : Reads g .any [] .failed
  | seq {items : List (Expr ι)} {cs : List Char} {r : Result ν}
      (h : ReadsSeq g false items cs r) : Reads g (.seq items) cs r
  | choice_none (cs : List Char) : Reads g (.choice []) cs .failed
  /-- The first alternative that does not fail is taken. -/
  | choice_taken {e : Expr ι} {others : List (Expr ι)} {cs : List Char} {r : Result ν}
      (h : Reads g e cs r) (hr : r ≠ .failed) : Reads g (.choice (e :: others)) cs r
  | choice_next {e : Expr ι} {others : List (Expr ι)} {cs : List Char} {r : Result ν}
      (h : Reads g e cs .failed) (hr : Reads g (.choice others) cs r) :
      Reads g (.choice (e :: others)) cs r
  | oneOrMore {e : Expr ι} {cs : List Char} {r : Result ν} (h : ReadsMany g true e cs r) :
      Reads g (.oneOrMore e) cs r
  | zeroOrMore {e : Expr ι} {cs : List Char} {r : Result ν} (h : ReadsMany g false e cs r) :
      Reads g (.zeroOrMore e) cs r
  | optional {e : Expr ι} {cs : List Char} {r : Result ν} (h : Reads g e cs r)
      (hr : r ≠ .failed) : Reads g (.optional e) cs r
  | optional_absent {e : Expr ι} {cs : List Char} (h : Reads g e cs .failed) :
      Reads g (.optional e) cs (.matched cs [] [])
  /-- Whatever happens in a lookahead, nothing of it stays. -/
  | not_failed {e : Expr ι} {cs rest : List Char} {items : List (Item ν)}
      {bindings : List (String × Item ν)} (h : Reads g e cs (.matched rest items bindings)) :
      Reads g (.not e) cs .failed
  | not {e : Expr ι} {cs : List Char} {r : Result ν} (h : Reads g e cs r)
      (hr : r = .failed ∨ r = .aborted) : Reads g (.not e) cs (.matched cs [] [])
  /-- A commit means something only among the elements of a sequence. -/
  | commit (cs : List Char) : Reads g .commit cs (.matched cs [] [])
  | ignore {e : Expr ι} {cs rest : List Char} {items : List (Item ν)}
      {bindings : List (String × Item ν)} (h : Reads g e cs (.matched rest items bindings)) :
      Reads g (.ignore e) cs (.matched rest [] bindings)
  | ignore_unmatched {e : Expr ι} {cs : List Char} {r : Result ν} (h : Reads g e cs r)
      (hr : r = .failed ∨ r = .aborted) : Reads g (.ignore e) cs r
  | capture {name : String} {e : Expr ι} {cs rest : List Char} {items : List (Item ν)}
      {bindings : List (String × Item ν)} (h : Reads g e cs (.matched rest items bindings)) :
      Reads g (.capture name e) cs (.matched rest items (bindings ++ items.map (name, ·)))
  | capture_unmatched {name : String} {e : Expr ι} {cs : List Char} {r : Result ν}
      (h : Reads g e cs r) (hr : r = .failed ∨ r = .aborted) : Reads g (.capture name e) cs r
  /-- A rule without an action stands for its body. -/
  | transparent {id : ι} {cs : List Char} {r : Result ν} (ha : (g.rule id).action = none)
      (h : Reads g (g.rule id).body cs r) : Reads g (.rule id) cs r
  /-- The bindings of an action rule are its action's alone. -/
  | acting {id : ι} {action : Captures ν → Except ε (List ν)} {cs rest : List Char}
      {items : List (Item ν)} {bindings : List (String × Item ν)} {nodes : List ν}
      (ha : (g.rule id).action = some action)
      (h : Reads g (g.rule id).body cs (.matched rest items bindings))
      (hn : action ⟨bindings⟩ = .ok nodes) :
      Reads g (.rule id) cs (.matched rest (nodes.map .node) [])
  | acting_rejected {id : ι} {action : Captures ν → Except ε (List ν)} {cs rest : List Char}
      {items : List (Item ν)} {bindings : List (String × Item ν)} {error : ε}
      (ha : (g.rule id).action = some action)
      (h : Reads g (g.rule id).body cs (.matched rest items bindings))
      (he : action ⟨bindings⟩ = .error error) : Reads g (.rule id) cs .aborted
  | acting_unmatched {id : ι} {action : Captures ν → Except ε (List ν)} {cs : List Char}
      {r : Result ν} (ha : (g.rule id).action = some action)
      (h : Reads g (g.rule id).body cs r) (hr : r = .failed ∨ r = .aborted) :
      Reads g (.rule id) cs r

/-- The elements of a sequence, after a commit among those before them or not. -/
inductive ReadsSeq (g : Grammar ι ν ε) : Bool → List (Expr ι) → List Char → Result ν → Prop where
  | nil (committed : Bool) (cs : List Char) : ReadsSeq g committed [] cs (.matched cs [] [])
  | commit {committed : Bool} {items : List (Expr ι)} {cs : List Char} {r : Result ν}
      (h : ReadsSeq g true items cs r) : ReadsSeq g committed (.commit :: items) cs r
  | cons {committed : Bool} {e : Expr ι} {items : List (Expr ι)} {cs rest : List Char}
      {first : List (Item ν)} {bindings : List (String × Item ν)} {r : Result ν}
      (hc : e ≠ .commit) (h : Reads g e cs (.matched rest first bindings))
      (hr : ReadsSeq g committed items rest r) :
      ReadsSeq g committed (e :: items) cs (r.after first bindings)
  | failed {e : Expr ι} {items : List (Expr ι)} {cs : List Char} (hc : e ≠ .commit)
      (h : Reads g e cs .failed) : ReadsSeq g false (e :: items) cs .failed
  | committed {e : Expr ι} {items : List (Expr ι)} {cs : List Char} (hc : e ≠ .commit)
      (h : Reads g e cs .failed) : ReadsSeq g true (e :: items) cs .aborted
  | aborted {committed : Bool} {e : Expr ι} {items : List (Expr ι)} {cs : List Char}
      (hc : e ≠ .commit) (h : Reads g e cs .aborted) :
      ReadsSeq g committed (e :: items) cs .aborted

/-- Greedy repetition: it ends before the first failure or after the first match of nothing. Where
a match is required the first failure is that of the repetition. -/
inductive ReadsMany (g : Grammar ι ν ε) : Bool → Expr ι → List Char → Result ν → Prop where
  | done {e : Expr ι} {cs : List Char} (h : Reads g e cs .failed) :
      ReadsMany g false e cs (.matched cs [] [])
  | missing {e : Expr ι} {cs : List Char} (h : Reads g e cs .failed) :
      ReadsMany g true e cs .failed
  | idle {required : Bool} {e : Expr ι} {cs : List Char} {items : List (Item ν)}
      {bindings : List (String × Item ν)} (h : Reads g e cs (.matched cs items bindings)) :
      ReadsMany g required e cs (.matched cs items bindings)
  | more {required : Bool} {e : Expr ι} {cs rest : List Char} {items : List (Item ν)}
      {bindings : List (String × Item ν)} {r : Result ν}
      (h : Reads g e cs (.matched rest items bindings)) (hl : rest.length < cs.length)
      (hr : ReadsMany g false e rest r) : ReadsMany g required e cs (r.after items bindings)
  | aborted {required : Bool} {e : Expr ι} {cs : List Char} (h : Reads g e cs .aborted) :
      ReadsMany g required e cs .aborted

end

variable {g : Grammar ι ν ε} {e : Expr ι} {es : List (Expr ι)} {cs rest mid : List Char}
  {items more : List (Item ν)} {bs others : List (String × Item ν)} {c : Bool}

/-- To a sequence that matches it is all the same whether there was a commit before. -/
theorem ReadsSeq.of_matched (h : ReadsSeq g c es cs (.matched rest items bs)) (c' : Bool) :
    ReadsSeq g c' es cs (.matched rest items bs) := by
  induction es generalizing c cs items bs with
  | nil => cases h with | nil => exact .nil _ _
  | cons e es ih =>
    generalize hr : Result.matched rest items bs = r at h ⊢
    cases h with
    | commit h => exact .commit h
    | cons hc h hs =>
      obtain ⟨more, others, rfl, rfl, rfl⟩ := Result.eq_matched_of_after hr.symm
      exact .cons hc h (ih hs)
    | failed | committed | aborted => cases hr

/-- A match of a sequence is one of its first element and then one of the others. -/
theorem ReadsSeq.cons_iff :
    ReadsSeq g c (e :: es) cs (.matched rest items bs) ↔
      ∃ mid i more b b', Reads g e cs (.matched mid i b) ∧
        ReadsSeq g c es mid (.matched rest more b') ∧ items = i ++ more ∧ bs = b ++ b' := by
  constructor
  · intro h
    generalize hr : Result.matched rest items bs = r at h
    cases h with
    | commit h =>
      subst hr
      exact ⟨cs, [], items, [], bs, .commit cs, h.of_matched c, rfl, rfl⟩
    | cons _ h hs =>
      obtain ⟨more, b', rfl, rfl, rfl⟩ := Result.eq_matched_of_after hr.symm
      exact ⟨_, _, more, _, b', h, hs, rfl, rfl⟩
    | failed | committed | aborted => cases hr
  · intro hp
    obtain ⟨mid, i, more, b, b', h, hs, rfl, rfl⟩ := hp
    by_cases hc : e = .commit
    · subst hc
      cases h with
      | commit => exact .commit (hs.of_matched true)
    · exact .cons hc h hs

/-- After a commit the elements go on, and know of it. -/
theorem ReadsSeq.of_commit {r : Result ν} (h : ReadsSeq g c (.commit :: es) cs r) :
    ReadsSeq g true es cs r := by
  cases h with
  | commit h => exact h
  | cons hc | failed hc | committed hc | aborted hc => exact absurd rfl hc

/-- A sequence is aborted in its first element or after it. -/
theorem ReadsSeq.of_aborted (hc : e ≠ .commit) (h : ReadsSeq g c (e :: es) cs .aborted) :
    (c = true ∧ Reads g e cs .failed) ∨ Reads g e cs .aborted ∨
      ∃ mid i b, Reads g e cs (.matched mid i b) ∧ ReadsSeq g c es mid .aborted := by
  generalize hr : Result.aborted = r at h
  cases h with
  | commit => exact absurd rfl hc
  | cons _ h hs =>
    obtain rfl := Result.eq_aborted_of_after hr.symm
    exact .inr (.inr ⟨_, _, _, h, hs⟩)
  | failed => cases hr
  | committed _ h => exact .inl ⟨rfl, h⟩
  | aborted _ h => exact .inr (.inl h)

/-- A sequence fails in its first element or after it. -/
theorem ReadsSeq.of_failed (hc : e ≠ .commit) (h : ReadsSeq g c (e :: es) cs .failed) :
    Reads g e cs .failed ∨
      ∃ mid i b, Reads g e cs (.matched mid i b) ∧ ReadsSeq g c es mid .failed := by
  generalize hr : Result.failed = r at h
  cases h with
  | commit => exact absurd rfl hc
  | cons _ h hs =>
    obtain rfl := Result.eq_failed_of_after hr.symm
    exact .inr ⟨_, _, _, h, hs⟩
  | failed _ h => exact .inl h
  | committed | aborted => cases hr

/-- A repetition is over before a failure or after a match of nothing. Any other match is followed
by more of them. -/
theorem ReadsMany.of_matched {q : Bool} (h : ReadsMany g q e cs (.matched rest items bs)) :
    (Reads g e cs .failed ∧ q = false ∧ rest = cs ∧ items = [] ∧ bs = []) ∨
      (Reads g e cs (.matched cs items bs) ∧ rest = cs) ∨
      ∃ mid i b j b', Reads g e cs (.matched mid i b) ∧ mid.length < cs.length ∧
        ReadsMany g false e mid (.matched rest j b') ∧ items = i ++ j ∧ bs = b ++ b' := by
  generalize hr : Result.matched rest items bs = r at h
  cases h with
  | done h => cases hr; exact .inl ⟨h, rfl, rfl, rfl, rfl⟩
  | idle h => cases hr; exact .inr (.inl ⟨h, rfl⟩)
  | more h hl hs =>
    obtain ⟨_, _, rfl, rfl, rfl⟩ := Result.eq_matched_of_after hr.symm
    exact .inr (.inr ⟨_, _, _, _, _, h, hl, hs, rfl, rfl⟩)
  | missing | aborted => cases hr

/-- One element more of a sequence that matches. -/
theorem ReadsSeq.next (h : Reads g e cs (.matched mid items bs))
    (hs : ReadsSeq g c es mid (.matched rest more others)) :
    ReadsSeq g c (e :: es) cs (.matched rest (items ++ more) (bs ++ others)) :=
  ReadsSeq.cons_iff.2 ⟨mid, items, more, bs, others, h, hs, rfl, rfl⟩

/-- A sequence fails where its first element does. -/
theorem Reads.seq_failed (h : Reads g e cs .failed) : Reads g (.seq (e :: es)) cs .failed := by
  refine .seq (.failed ?_ h)
  intro hp
  subst hp
  cases h

theorem Reads.of_ignore (h : Reads g (.ignore e) cs (.matched rest items bs)) :
    items = [] ∧ ∃ dropped, Reads g e cs (.matched rest dropped bs) := by
  cases h with
  | ignore h => exact ⟨rfl, _, h⟩
  | ignore_unmatched _ hr => simp at hr

theorem Reads.of_capture {name : String}
    (h : Reads g (.capture name e) cs (.matched rest items bs)) :
    ∃ b, Reads g e cs (.matched rest items b) ∧ bs = b ++ items.map (name, ·) := by
  cases h with
  | capture h => exact ⟨_, h, rfl⟩
  | capture_unmatched _ hr => simp at hr

/-- Where a rule matches, its body does, and leaves the same. -/
theorem Reads.of_rule {id : ι} (h : Reads g (.rule id) cs (.matched rest items bs)) :
    ∃ i b, Reads g (g.rule id).body cs (.matched rest i b) := by
  cases h with
  | transparent _ h => exact ⟨_, _, h⟩
  | acting _ h => exact ⟨_, _, h⟩
  | acting_unmatched _ _ hr => simp at hr

/-- A rule fails where its body does, whatever its action is. -/
theorem Reads.rule_failed_iff {id : ι} :
    Reads g (.rule id) cs .failed ↔ Reads g (g.rule id).body cs .failed := by
  refine ⟨fun h => ?_, fun h => ?_⟩
  · cases h with
    | transparent _ h => exact h
    | acting_unmatched _ h => exact h
  · cases ha : (g.rule id).action with
    | none => exact .transparent ha h
    | some action => exact .acting_unmatched ha h (.inl rfl)

/-- A sequence of one element is without a match just where this is. -/
theorem Reads.of_single {r : Result ν} (hc : e ≠ .commit) (h : Reads g (.seq [e]) cs r)
    (hr : r = .failed ∨ r = .aborted) : Reads g e cs r := by
  cases h with
  | seq h =>
    rcases hr with rfl | rfl
    · rcases h.of_failed hc with h | ⟨_, _, _, -, h⟩
      · exact h
      · cases h
    · rcases h.of_aborted hc with ⟨hc, -⟩ | h | ⟨_, _, _, -, h⟩
      · cases hc
      · exact h
      · cases h

end Fleet.Peg
