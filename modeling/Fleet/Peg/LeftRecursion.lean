import Fleet.Peg.Grammar
/-!
Rule tables in which no rule comes back to itself before it has consumed a character.
-/

namespace Fleet.Peg

variable {ι ν ε : Type}

/-- A match of the expression takes at least one character of the text. -/
inductive Consumes (g : Grammar ι ν ε) : Expr ι → Prop where
  | literal {text : String} (h : text ≠ "") : Consumes g (.literal text)
  | oneOf (cls : CharClass) : Consumes g (.oneOf cls)
  | any : Consumes g .any
  | seq {e : Expr ι} {items : List (Expr ι)} (he : e ∈ items) (h : Consumes g e) :
      Consumes g (.seq items)
  | choice {items : List (Expr ι)} (h : ∀ e ∈ items, Consumes g e) : Consumes g (.choice items)
  | oneOrMore {e : Expr ι} (h : Consumes g e) : Consumes g (.oneOrMore e)
  | ignore {e : Expr ι} (h : Consumes g e) : Consumes g (.ignore e)
  | capture {e : Expr ι} (name : String) (h : Consumes g e) : Consumes g (.capture name e)
  | rule {id : ι} (h : Consumes g (g.rule id).body) : Consumes g (.rule id)

/-- The rule may be tried at the place where the expression is, nothing being consumed before. -/
inductive Leads (g : Grammar ι ν ε) : Expr ι → ι → Prop where
  | rule (id : ι) : Leads g (.rule id) id
  | seq {before after : List (Expr ι)} {e : Expr ι} {id : ι}
      (hb : ∀ x ∈ before, ¬ Consumes g x) (h : Leads g e id) :
      Leads g (.seq (before ++ e :: after)) id
  | choice {items : List (Expr ι)} {e : Expr ι} {id : ι} (he : e ∈ items) (h : Leads g e id) :
      Leads g (.choice items) id
  | oneOrMore {e : Expr ι} {id : ι} (h : Leads g e id) : Leads g (.oneOrMore e) id
  | zeroOrMore {e : Expr ι} {id : ι} (h : Leads g e id) : Leads g (.zeroOrMore e) id
  | optional {e : Expr ι} {id : ι} (h : Leads g e id) : Leads g (.optional e) id
  | not {e : Expr ι} {id : ι} (h : Leads g e id) : Leads g (.not e) id
  | ignore {e : Expr ι} {id : ι} (h : Leads g e id) : Leads g (.ignore e) id
  | capture {e : Expr ι} {id : ι} (name : String) (h : Leads g e id) :
      Leads g (.capture name e) id

/-- The ranks go down along every rule that a rule may try before it consumes. -/
def Grammar.RankedBy (g : Grammar ι ν ε) (rank : ι → Nat) : Prop :=
  ∀ i j, Leads g (g.rule i).body j → rank j < rank i

def Grammar.NotLeftRecursive (g : Grammar ι ν ε) : Prop := ∃ rank, g.RankedBy rank

/-! ### Deciding it

Looking at literals, classes and wildcards alone is enough where rules do not lead on from others
that consume. -/

mutual

/-- A match takes at least one character, whatever the rules do. -/
def Expr.consumes : Expr ι → Bool
  | .literal text => text != ""
  | .oneOf _ | .any => true
  | .seq items => anyConsumes items
  | .choice items => allConsume items
  | .oneOrMore e | .ignore e | .capture _ e => e.consumes
  | .zeroOrMore _ | .optional _ | .not _ | .commit | .rule _ => false

def Expr.anyConsumes : List (Expr ι) → Bool
  | [] => false
  | e :: items => e.consumes || anyConsumes items

def Expr.allConsume : List (Expr ι) → Bool
  | [] => true
  | e :: items => e.consumes && allConsume items

end

mutual

/-- Rules among which are all that may be tried before a character is consumed. -/
def Expr.leads : Expr ι → List ι
  | .rule id => [id]
  | .seq items => leadsSeq items
  | .choice items => leadsAll items
  | .oneOrMore e | .zeroOrMore e | .optional e | .not e | .ignore e | .capture _ e => e.leads
  | .literal _ | .oneOf _ | .any | .commit => []

def Expr.leadsSeq : List (Expr ι) → List ι
  | [] => []
  | e :: items => e.leads ++ if e.consumes then [] else leadsSeq items

def Expr.leadsAll : List (Expr ι) → List ι
  | [] => []
  | e :: items => e.leads ++ leadsAll items

end

mutual

theorem consumes_sound (g : Grammar ι ν ε) : ∀ e : Expr ι, e.consumes = true → Consumes g e
  | .literal text => fun h => .literal (by simpa [Expr.consumes] using h)
  | .oneOf cls => fun _ => .oneOf cls
  | .any => fun _ => .any
  | .seq items => fun h =>
    let ⟨_, he, hc⟩ := anyConsumes_sound g items h
    .seq he hc
  | .choice items => fun h => .choice (allConsume_sound g items h)
  | .oneOrMore e => fun h => .oneOrMore (consumes_sound g e h)
  | .ignore e => fun h => .ignore (consumes_sound g e h)
  | .capture name e => fun h => .capture name (consumes_sound g e h)
  | .zeroOrMore _ | .optional _ | .not _ | .commit | .rule _ => nofun

theorem anyConsumes_sound (g : Grammar ι ν ε) :
    ∀ items : List (Expr ι), Expr.anyConsumes items = true → ∃ e ∈ items, Consumes g e
  | [] => nofun
  | e :: items => fun h => by
    rcases Bool.or_eq_true_iff.1 h with h | h
    · exact ⟨e, by simp, consumes_sound g e h⟩
    · obtain ⟨e', he', hc⟩ := anyConsumes_sound g items h
      exact ⟨e', by simp [he'], hc⟩

theorem allConsume_sound (g : Grammar ι ν ε) :
    ∀ items : List (Expr ι), Expr.allConsume items = true → ∀ e ∈ items, Consumes g e
  | [] => fun _ => nofun
  | e :: items => fun h e' he' => by
    obtain ⟨he, hi⟩ := Bool.and_eq_true_iff.1 h
    rcases List.mem_cons.1 he' with he' | he'
    · exact he' ▸ consumes_sound g e he
    · exact allConsume_sound g items hi e' he'

end

variable {g : Grammar ι ν ε}

theorem mem_leadsSeq {before after : List (Expr ι)} {e : Expr ι} {id : ι}
    (hb : ∀ x ∈ before, ¬ Consumes g x) (h : id ∈ e.leads) :
    id ∈ Expr.leadsSeq (before ++ e :: after) := by
  induction before with
  | nil => simp [Expr.leadsSeq, h]
  | cons x before ih =>
    have hx : x.consumes = false :=
      Bool.eq_false_iff.2 fun hc => hb x (by simp) (consumes_sound g x hc)
    simp only [List.cons_append, Expr.leadsSeq, hx, List.mem_append]
    exact .inr (ih fun y hy => hb y (List.mem_cons_of_mem _ hy))

theorem mem_leadsAll {items : List (Expr ι)} {e : Expr ι} {id : ι} (he : e ∈ items)
    (h : id ∈ e.leads) : id ∈ Expr.leadsAll items := by
  induction items with
  | nil => cases he
  | cons x items ih =>
    simp only [Expr.leadsAll, List.mem_append]
    rcases List.mem_cons.1 he with rfl | he
    · exact .inl h
    · exact .inr (ih he)

theorem Leads.mem_leads {e : Expr ι} {id : ι} (h : Leads g e id) : id ∈ e.leads := by
  induction h with
  | rule id => simp [Expr.leads]
  | seq hb _ ih => exact mem_leadsSeq hb ih
  | choice he _ ih => exact mem_leadsAll he ih
  | oneOrMore _ ih | zeroOrMore _ ih | optional _ ih | not _ ih | ignore _ ih | capture _ _ ih =>
    exact ih

theorem Grammar.rankedBy_of_leads {rank : ι → Nat}
    (h : ∀ i, ∀ j ∈ (g.rule i).body.leads, rank j < rank i) : g.RankedBy rank :=
  fun i j hl => h i j hl.mem_leads

end Fleet.Peg
