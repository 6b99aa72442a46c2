import Fleet.Proofs.Peg.Consumption
/-!
In a rule table without left recursion every expression has a result before every text
(`exists_reads`). A consumed character leaves a shorter text, and what is tried before one is
consumed are rules of smaller rank or parts of the expression.
-/

namespace Fleet.Peg

variable {ι ν ε : Type} {g : Grammar ι ν ε} {cs : List Char}

/-- The rules that the expression may try where it stands have results before the text. -/
def LeadsToResults (g : Grammar ι ν ε) (cs : List Char) (e : Expr ι) : Prop :=
  ∀ i, Leads g e i → ∃ r, Reads g (.rule i) cs r

namespace LeadsToResults
variable {e : Expr ι} {es : List (Expr ι)}

theorem head (h : LeadsToResults g cs (.seq (e :: es))) : LeadsToResults g cs e :=
  fun i hi => h i (show Leads g (.seq ([] ++ e :: es)) i from .seq (by simp) hi)

theorem tail (h : LeadsToResults g cs (.seq (e :: es))) (he : ¬ Consumes g e) :
    LeadsToResults g cs (.seq es) := by
  intro i hi
  cases hi with
  | @seq before after x _ hb hx =>
    refine h i (show Leads g (.seq ((e :: before) ++ x :: after)) i from .seq (fun y hy => ?_) hx)
    rcases List.mem_cons.1 hy with rfl | hy
    · exact he
    · exact hb y hy

theorem alternatives (h : LeadsToResults g cs (.choice (e :: es))) :
    LeadsToResults g cs (.choice es) := by
  intro i hi
  cases hi with
  | choice he hx => exact h i (.choice (List.mem_cons_of_mem _ he) hx)

end LeadsToResults

/-- Every expression has a result before every shorter text. -/
def ResultsBelow (g : Grammar ι ν ε) (cs : List Char) : Prop :=
  ∀ (e : Expr ι) (rest : List Char), rest.length < cs.length → ∃ r, Reads g e rest r

theorem ResultsBelow.seq {rest : List Char} (h : ResultsBelow g cs) (es : List (Expr ι)) (c : Bool)
    (hl : rest.length < cs.length) : ∃ r, ReadsSeq g c es rest r := by
  cases c with
  | false =>
    obtain ⟨r, hr⟩ := h (.seq es) rest hl
    cases hr with
    | seq hr => exact ⟨r, hr⟩
  | true =>
    obtain ⟨r, hr⟩ := h (.seq (.commit :: es)) rest hl
    cases hr with
    | seq hr => exact ⟨r, hr.of_commit⟩

/-- A rule has a result where its body has one: whatever the action makes of it. -/
theorem exists_reads_rule {i : ι} (h : ∃ r, Reads g (g.rule i).body cs r) :
    ∃ r, Reads g (.rule i) cs r := by
  obtain ⟨r, hr⟩ := h
  cases hact : (g.rule i).action with
  | none => exact ⟨r, .transparent hact hr⟩
  | some action =>
    cases r with
    | failed => exact ⟨_, .acting_unmatched hact hr (.inl rfl)⟩
    | aborted => exact ⟨_, .acting_unmatched hact hr (.inr rfl)⟩
    | matched rest items bs =>
      cases hn : action ⟨bs⟩ with
      | ok nodes => exact ⟨_, .acting hact hr hn⟩
      | error error => exact ⟨_, .acting_rejected hact hr hn⟩

/-- A repetition has a result where what it repeats has one. -/
theorem ResultsBelow.many [BEq ι] {e : Expr ι} {r : Result ν} (h : ResultsBelow g cs) (q : Bool)
    (hr : Reads g e cs r) : ∃ r, ReadsMany g q e cs r := by
  cases r with
  | aborted => exact ⟨_, .aborted hr⟩
  | failed =>
    cases q with
    | true => exact ⟨_, .missing hr⟩
    | false => exact ⟨_, .done hr⟩
  | matched rest items bs =>
    by_cases hl : rest.length < cs.length
    · obtain ⟨r, hmore⟩ := h (.zeroOrMore e) rest hl
      cases hmore with
      | zeroOrMore hmore => exact ⟨_, .more hr hl hmore⟩
    · obtain rfl := hr.suffix.eq_of_length_le (Nat.not_lt.1 hl)
      exact ⟨_, .idle hr⟩

mutual

theorem Expr.exists_reads [BEq ι] (hs : ResultsBelow g cs) :
    ∀ e : Expr ι, LeadsToResults g cs e → ∃ r, Reads g e cs r
  | .literal text, _ => by
    by_cases h : text.toList <+: cs
    · obtain ⟨rest, rfl⟩ := h
      exact ⟨_, .literal text rest⟩
    · exact ⟨_, .literal_failed h⟩
  | .oneOf cls, _ => by
    cases cs with
    | nil => exact ⟨_, .oneOf_failed rfl⟩
    | cons c rest =>
      cases h : cls.contains c with
      | true => exact ⟨_, .oneOf rest h⟩
      | false => exact ⟨_, .oneOf_failed h⟩
  | .any, _ => by
    cases cs with
    | nil => exact ⟨_, .any_failed⟩
    | cons c rest => exact ⟨_, .any c rest⟩
  | .commit, _ => ⟨_, .commit cs⟩
  | .rule i, h => h i (.rule i)
  | .seq es, h =>
    let ⟨r, hr⟩ := exists_readsSeq hs es false h
    ⟨r, .seq hr⟩
  | .choice es, h => exists_reads_choice hs es h
  | .oneOrMore e, h =>
    let ⟨_, hr⟩ := Expr.exists_reads hs e fun i hi => h i (.oneOrMore hi)
    let ⟨r, hr⟩ := hs.many true hr
    ⟨r, .oneOrMore hr⟩
  | .zeroOrMore e, h =>
    let ⟨_, hr⟩ := Expr.exists_reads hs e fun i hi => h i (.zeroOrMore hi)
    let ⟨r, hr⟩ := hs.many false hr
    ⟨r, .zeroOrMore hr⟩
  | .optional e, h => by
    obtain ⟨r, hr⟩ := Expr.exists_reads hs e fun i hi => h i (.optional hi)
    cases r with
    | failed => exact ⟨_, .optional_absent hr⟩
    | matched | aborted => exact ⟨_, .optional hr nofun⟩
  | .not e, h => by
    obtain ⟨r, hr⟩ := Expr.exists_reads hs e fun i hi => h i (.not hi)
    cases r with
    | matched => exact ⟨_, .not_failed hr⟩
    | failed => exact ⟨_, .not hr (.inl rfl)⟩
    | aborted => exact ⟨_, .not hr (.inr rfl)⟩
  | .ignore e, h => by
    obtain ⟨r, hr⟩ := Expr.exists_reads hs e fun i hi => h i (.ignore hi)
    cases r with
    | matched => exact ⟨_, .ignore hr⟩
    | failed => exact ⟨_, .ignore_unmatched hr (.inl rfl)⟩
    | aborted => exact ⟨_, .ignore_unmatched hr (.inr rfl)⟩
  | .capture name e, h => by
    obtain ⟨r, hr⟩ := Expr.exists_reads hs e fun i hi => h i (.capture name hi)
    cases r with
    | matched => exact ⟨_, .capture hr⟩
    | failed => exact ⟨_, .capture_unmatched hr (.inl rfl)⟩
    | aborted => exact ⟨_, .capture_unmatched hr (.inr rfl)⟩

theorem exists_readsSeq [BEq ι] (hs : ResultsBelow g cs) :
    ∀ (es : List (Expr ι)) (c : Bool), LeadsToResults g cs (.seq es) → ∃ r, ReadsSeq g c es cs r
  | [], c, _ => ⟨_, .nil c cs⟩
  | e :: es, c, h => by
    by_cases hc : e = .commit
    · subst hc
      obtain ⟨r, hr⟩ := exists_readsSeq hs es true (h.tail nofun)
      exact ⟨r, .commit hr⟩
    · obtain ⟨r, hr⟩ := Expr.exists_reads hs e h.head
      cases r with
      | aborted => exact ⟨_, .aborted hc hr⟩
      | failed =>
        cases c with
        | false => exact ⟨_, .failed hc hr⟩
        | true => exact ⟨_, .committed hc hr⟩
      | matched rest items bs =>
        by_cases hl : rest.length < cs.length
        · obtain ⟨r, hmore⟩ := hs.seq es c hl
          exact ⟨_, .cons hc hr hmore⟩
        · have hrest : rest = cs := hr.suffix.eq_of_length_le (Nat.not_lt.1 hl)
          obtain ⟨r, hmore⟩ := exists_readsSeq hs es c (h.tail fun hcon => hl (hcon.shorter hr))
          exact ⟨_, .cons hc hr (hrest ▸ hmore)⟩

theorem exists_reads_choice [BEq ι] (hs : ResultsBelow g cs) :
    ∀ es : List (Expr ι), LeadsToResults g cs (.choice es) → ∃ r, Reads g (.choice es) cs r
  | [], _ => ⟨_, .choice_none cs⟩
  | e :: es, h => by
    obtain ⟨r, hr⟩ := Expr.exists_reads hs e fun i hi => h i (.choice (by simp) hi)
    cases r with
    | matched | aborted => exact ⟨_, .choice_taken hr nofun⟩
    | failed =>
      obtain ⟨r, hmore⟩ := exists_reads_choice hs es h.alternatives
      exact ⟨r, .choice_next hr hmore⟩

end

/-- Without left recursion every expression has a result before every text. -/
theorem exists_reads [BEq ι] (hg : g.NotLeftRecursive) (e : Expr ι) (cs : List Char) :
    ∃ r, Reads g e cs r := by
  obtain ⟨rank, hrank⟩ := hg
  induction hn : cs.length using Nat.strongRecOn generalizing e cs with
  | ind n ih =>
    subst hn
    have hbelow : ResultsBelow g cs := fun e rest hl => ih rest.length hl e rest rfl
    have hrule (i : ι) : ∃ r, Reads g (.rule i) cs r := by
      induction hm : rank i using Nat.strongRecOn generalizing i with
      | ind m ihm =>
        subst hm
        exact exists_reads_rule <|
          (g.rule i).body.exists_reads hbelow fun j hj => ihm (rank j) (hrank i j hj) j rfl
    exact e.exists_reads hbelow fun i _ => hrule i

end Fleet.Peg
