import Fleet.Proofs.Peg.Listing
/-!
Captured text is the text consumed. An expression that drops nothing and asks no action yields what
it consumes, piece by piece (`Reads.spells`), so that an action reads under a name what its captures
have taken of the text (`captures_consumed_text`).
-/

namespace Fleet.Peg
open Fleet.Text

variable {ι ν ε : Type} {g : Grammar ι ν ε} {e part : Expr ι} {es : List (Expr ι)}
  {cs mid rest : List Char} {items first : List (Item ν)} {bs : List (String × Item ν)}
  {r : Result ν}

/-! ## Expressions that yield what they consume -/

/-- The expressions that a match of the expression is made of. What stands in a lookahead is none of
them, nor is what an action is asked about. -/
def Expr.parts (g : Grammar ι ν ε) : Expr ι → List (Expr ι)
  | .seq items | .choice items => items
  | .oneOrMore e | .zeroOrMore e | .optional e | .ignore e | .capture _ e => [e]
  | .rule id => if (g.rule id).action.isNone then [(g.rule id).body] else []
  | .literal _ | .oneOf _ | .any | .not _ | .commit => []

/-- The expression is `part` or has it in it. -/
inductive Part (g : Grammar ι ν ε) (part : Expr ι) : Expr ι → Prop where
  | here : Part g part part
  | inside {e whole : Expr ι} (he : e ∈ whole.parts g) (h : Part g part e) : Part g part whole

namespace Part
variable {whole : Expr ι} {id : ι}

theorem trans (h : Part g part e) (h' : Part g e whole) : Part g part whole := by
  induction h' with
  | here => exact h
  | inside he _ ih => exact .inside he ih

theorem of_mem (he : e ∈ whole.parts g) : Part g e whole := .inside he .here

theorem body (ha : (g.rule id).action = none) : Part g (g.rule id).body (.rule id) :=
  .of_mem (by simp [Expr.parts, ha])

end Part

/-- Nothing that a match of the expression consumes is dropped, or given to an action. -/
structure Verbatim (g : Grammar ι ν ε) (e : Expr ι) : Prop where
  keeps : ∀ dropped, ¬ Part g (.ignore dropped) e
  transparent : ∀ id, Part g (.rule id) e → (g.rule id).action = none

namespace Verbatim

theorem of_part (hv : Verbatim g e) (h : Part g part e) : Verbatim g part :=
  ⟨fun x hx => hv.keeps x (hx.trans h), fun id hid => hv.transparent id (hid.trans h)⟩

theorem of_mem (hv : Verbatim g e) (h : part ∈ e.parts g) : Verbatim g part :=
  hv.of_part (.of_mem h)

theorem choice_tail (hv : Verbatim g (.choice (e :: es))) : Verbatim g (.choice es) := by
  refine ⟨fun x hx => ?_, fun id hid => ?_⟩
  · cases hx with
    | inside he hx => exact (hv.of_mem (List.mem_cons_of_mem e he)).keeps x hx
  · cases hid with
    | inside he hid => exact (hv.of_mem (List.mem_cons_of_mem e he)).transparent id hid

end Verbatim

/-- Whether all the parts, so deep, are as said. It is false where there are deeper ones. -/
def Grammar.everyPart (g : Grammar ι ν ε) (p : Expr ι → Bool) : Nat → Expr ι → Bool
  | 0, _ => false
  | depth + 1, e => p e && (e.parts g).all (g.everyPart p depth)

theorem Part.of_everyPart {p : Expr ι → Bool} {depth : Nat} (h : g.everyPart p depth e = true)
    (hp : Part g part e) : p part = true := by
  induction hp generalizing depth with
  | here =>
    cases depth with
    | zero => cases h
    | succ depth => exact (Bool.and_eq_true_iff.1 h).1
  | inside he _ ih =>
    cases depth with
    | zero => cases h
    | succ depth => exact ih (List.all_eq_true.1 (Bool.and_eq_true_iff.1 h).2 _ he)

/-- Whether a match drops nothing of what its parts yield, and asks no action about it. -/
def Expr.passesOn (g : Grammar ι ν ε) : Expr ι → Bool
  | .ignore _ => false
  | .rule id => (g.rule id).action.isNone
  | _ => true

theorem Verbatim.of_everyPart {depth : Nat} (h : g.everyPart (Expr.passesOn g) depth e = true) :
    Verbatim g e where
  keeps _ hp := Bool.noConfusion (hp.of_everyPart h)
  transparent _ hp := Option.isNone_iff_eq_none.1 (hp.of_everyPart h)

namespace Result

/-- A match yields the text that it takes from the front of `cs`. -/
def Spells (cs : List Char) : Result ν → Prop
  | matched rest items _ =>
    ∃ words : List String, items = words.map .text ∧ cs = (String.join words).toList ++ rest
  | failed | aborted => True

theorem spells_of_unmatched (h : r = .failed ∨ r = .aborted) : r.Spells cs := by
  rcases h with rfl | rfl <;> trivial

theorem spells_nothing (cs : List Char) (bs : List (String × Item ν)) :
    (matched cs [] bs).Spells cs :=
  ⟨[], rfl, rfl⟩

theorem spells_word (word : String) (rest : List Char) :
    (matched rest [.text word] [] : Result ν).Spells (word.toList ++ rest) :=
  ⟨[word], rfl, by simp⟩

theorem spells_char (c : Char) (rest : List Char) :
    (matched rest [.text c.toString] [] : Result ν).Spells (c :: rest) := by
  simpa using spells_word c.toString rest

/-- What comes after a match goes on with the text. -/
theorem Spells.after (h : (matched mid first bs).Spells cs) (hr : r.Spells mid) :
    (r.after first bs).Spells cs := by
  cases r with
  | matched rest more others =>
    obtain ⟨words, rfl, rfl⟩ := h
    obtain ⟨others, rfl, rfl⟩ := hr
    exact ⟨words ++ others, by simp, by simp⟩
  | failed | aborted => trivial

end Result

mutual

/-- Text is yielded where it is consumed, a word or a character at a time, and the rest only passes
it on: what a branch has consumed that failed is not in the derivation of a match. -/
theorem Reads.spells {e : Expr ι} {cs : List Char} {r : Result ν} :
    Reads g e cs r → Verbatim g e → r.Spells cs
  | .literal text rest, _ => Result.spells_word text rest
  | .oneOf rest _, _ | .any _ rest, _ => Result.spells_char _ rest
  | .commit _, _ | .optional_absent _, _ | .not .., _ => Result.spells_nothing _ _
  | .literal_failed _, _ | .oneOf_failed _, _ | .any_failed, _ | .choice_none _, _
  | .not_failed _, _ | .acting_rejected .., _ => trivial
  | .seq h, hv => h.spells fun _ he => hv.of_mem he
  | .choice_taken h _, hv => h.spells (hv.of_mem List.mem_cons_self)
  | .choice_next _ h, hv => h.spells hv.choice_tail
  | .oneOrMore h, hv => h.spells (hv.of_mem List.mem_cons_self)
  | .zeroOrMore h, hv => h.spells (hv.of_mem List.mem_cons_self)
  | .optional h _, hv => h.spells (hv.of_mem List.mem_cons_self)
  | .ignore _, hv => (hv.keeps _ .here).elim
  | .capture h, hv => h.spells (hv.of_mem List.mem_cons_self)
  | .transparent ha h, hv => h.spells (hv.of_part (.body ha))
  | .acting ha .., hv => by
    rw [hv.transparent _ .here] at ha
    cases ha
  | .ignore_unmatched _ hr, _ | .capture_unmatched _ hr, _ | .acting_unmatched _ _ hr, _ =>
    Result.spells_of_unmatched hr

theorem ReadsSeq.spells {c : Bool} {es : List (Expr ι)} {cs : List Char} {r : Result ν} :
    ReadsSeq g c es cs r → (∀ e ∈ es, Verbatim g e) → r.Spells cs
  | .nil .., _ => Result.spells_nothing _ _
  | .commit h, hv => h.spells fun e he => hv e (List.mem_cons_of_mem _ he)
  | .cons _ h hr, hv =>
    (h.spells (hv _ List.mem_cons_self)).after
      (hr.spells fun e he => hv e (List.mem_cons_of_mem _ he))
  | .failed .., _ | .committed .., _ | .aborted .., _ => trivial

theorem ReadsMany.spells {q : Bool} {e : Expr ι} {cs : List Char} {r : Result ν} :
    ReadsMany g q e cs r → Verbatim g e → r.Spells cs
  | .done _, _ => Result.spells_nothing _ _
  | .idle h, hv => h.spells hv
  | .more h _ hr, hv => (h.spells hv).after (hr.spells hv)
  | .missing _, _ | .aborted _, _ => trivial

end

/-! ## What captures take -/

/-- A capture that was part of a match, and the text that its expression consumed. -/
structure Taken (ι : Type) where
  name : String
  expr : Expr ι
  word : List Char

namespace Taken

/-- All that was taken under the name, joined. -/
def under (taken : List (Taken ι)) (name : String) : List Char :=
  (taken.filter (·.name == name)).flatMap word

@[simp] theorem under_append (taken others : List (Taken ι)) (name : String) :
    under (taken ++ others) name = under taken name ++ under others name := by
  simp [under]

@[simp] theorem under_singleton (x : Taken ι) (name : String) :
    under [x] name = if x.name = name then x.word else [] := by
  by_cases h : x.name = name <;> simp [under, h]

end Taken

mutual

/-- A match of the expression before `cs` leaves `rest`, and in the scope around it these captures
were part of it, in the order in which they ended. -/
inductive Captured (g : Grammar ι ν ε) :
    Expr ι → List Char → List Char → List (Taken ι) → Prop where
  | nothing {e : Expr ι} {cs rest : List Char} {items : List (Item ν)}
      {bindings : List (String × Item ν)} (hb : ¬ MayBind g e)
      (h : Reads g e cs (.matched rest items bindings)) : Captured g e cs rest []
  | seq {items : List (Expr ι)} {cs rest : List Char} {taken : List (Taken ι)}
      (h : CapturedSeq g items cs rest taken) : Captured g (.seq items) cs rest taken
  | choice_taken {e : Expr ι} {others : List (Expr ι)} {cs rest : List Char}
      {taken : List (Taken ι)} (h : Captured g e cs rest taken) :
      Captured g (.choice (e :: others)) cs rest taken
  | choice_next {e : Expr ι} {others : List (Expr ι)} {cs rest : List Char}
      {taken : List (Taken ι)} (hf : Reads g e cs .failed)
      (h : Captured g (.choice others) cs rest taken) :
      Captured g (.choice (e :: others)) cs rest taken
  | oneOrMore {e : Expr ι} {cs rest : List Char} {taken : List (Taken ι)}
      (h : CapturedMany g true e cs rest taken) : Captured g (.oneOrMore e) cs rest taken
  | zeroOrMore {e : Expr ι} {cs rest : List Char} {taken : List (Taken ι)}
      (h : CapturedMany g false e cs rest taken) : Captured g (.zeroOrMore e) cs rest taken
  | optional {e : Expr ι} {cs rest : List Char} {taken : List (Taken ι)}
      (h : Captured g e cs rest taken) : Captured g (.optional e) cs rest taken
  | optional_absent {e : Expr ι} {cs : List Char} (hf : Reads g e cs .failed) :
      Captured g (.optional e) cs cs []
  | ignore {e : Expr ι} {cs rest : List Char} {taken : List (Taken ι)}
      (h : Captured g e cs rest taken) : Captured g (.ignore e) cs rest taken
  | capture {name : String} {e : Expr ι} {word rest : List Char} {taken : List (Taken ι)}
      (h : Captured g e (word ++ rest) rest taken) :
      Captured g (.capture name e) (word ++ rest) rest (taken ++ [⟨name, e, word⟩])
  | transparent {id : ι} {cs rest : List Char} {taken : List (Taken ι)}
      (ha : (g.rule id).action = none) (h : Captured g (g.rule id).body cs rest taken) :
      Captured g (.rule id) cs rest taken

/-- The elements of a sequence, as `Captured` is for one expression. -/
inductive CapturedSeq (g : Grammar ι ν ε) :
    List (Expr ι) → List Char → List Char → List (Taken ι) → Prop where
  | nil (cs : List Char) : CapturedSeq g [] cs cs []
  | cons {e : Expr ι} {items : List (Expr ι)} {cs mid rest : List Char}
      {taken others : List (Taken ι)} (h : Captured g e cs mid taken)
      (hs : CapturedSeq g items mid rest others) :
      CapturedSeq g (e :: items) cs rest (taken ++ others)

/-- The matches of a repetition. -/
inductive CapturedMany (g : Grammar ι ν ε) :
    Bool → Expr ι → List Char → List Char → List (Taken ι) → Prop where
  | done {e : Expr ι} {cs : List Char} (hf : Reads g e cs .failed) :
      CapturedMany g false e cs cs []
  | idle {required : Bool} {e : Expr ι} {cs : List Char} {taken : List (Taken ι)}
      (h : Captured g e cs cs taken) : CapturedMany g required e cs cs taken
  | more {required : Bool} {e : Expr ι} {cs mid rest : List Char} {taken others : List (Taken ι)}
      (h : Captured g e cs mid taken) (hl : mid.length < cs.length)
      (hs : CapturedMany g false e mid rest others) :
      CapturedMany g required e cs rest (taken ++ others)

end

variable {taken : List (Taken ι)} {word : List Char}

/-- The items of a verbatim match, joined, are the text it consumed. -/
theorem Reads.text_of_verbatim (hv : Verbatim g e)
    (h : Reads g e (word ++ rest) (.matched rest items bs)) :
    String.join (items.filterMap Item.text?) = String.ofList word := by
  obtain ⟨words, rfl, hw⟩ := h.spells hv
  have hword : word = (String.join words).toList := List.append_cancel_right hw
  rw [hword, String.ofList_toList]
  simp [List.filterMap_map, Function.comp_def]

/-- Under a name whose captures are all verbatim the bindings have the text that these consumed. -/
def Joins (g : Grammar ι ν ε) (taken : List (Taken ι)) (bs : List (String × Item ν)) : Prop :=
  ∀ name, (∀ x ∈ taken, x.name = name → Verbatim g x.expr) →
    (⟨bs⟩ : Captures ν).text name = String.ofList (Taken.under taken name)

namespace Joins
variable {others : List (Taken ι)} {more : List (String × Item ν)}

theorem nil (g : Grammar ι ν ε) : Joins g [] ([] : List (String × Item ν)) := fun _ _ => rfl

theorem append (h : Joins g taken bs) (h' : Joins g others more) :
    Joins g (taken ++ others) (bs ++ more) := by
  intro name hv
  have htext := h name fun x hx => hv x (List.mem_append_left _ hx)
  have htext' := h' name fun x hx => hv x (List.mem_append_right _ hx)
  simp [htext, htext']

theorem capture (name : String) (h : Reads g e (word ++ rest) (.matched rest items bs)) :
    Joins g [⟨name, e, word⟩] (items.map (name, ·)) := by
  intro other hv
  by_cases hname : name = other
  · have hword := h.text_of_verbatim (hv ⟨name, e, word⟩ List.mem_cons_self hname)
    simp [hname, hword]
  · simp [hname]

end Joins

mutual

/-- What was captured, was captured by a match. -/
theorem Captured.reads {e : Expr ι} {cs rest : List Char} {taken : List (Taken ι)} :
    Captured g e cs rest taken →
      ∃ items bs, Reads g e cs (.matched rest items bs) ∧ Joins g taken bs
  | .nothing hb h => by
    obtain rfl := h.unbound hb
    exact ⟨_, _, h, .nil g⟩
  | .seq h => by
    obtain ⟨items, bs, hr, hj⟩ := h.reads
    exact ⟨items, bs, .seq (hr false), hj⟩
  | .choice_taken h => by
    obtain ⟨items, bs, hr, hj⟩ := h.reads
    exact ⟨items, bs, .choice_taken hr nofun, hj⟩
  | .choice_next hf h => by
    obtain ⟨items, bs, hr, hj⟩ := h.reads
    exact ⟨items, bs, .choice_next hf hr, hj⟩
  | .oneOrMore h => by
    obtain ⟨items, bs, hr, hj⟩ := h.reads
    exact ⟨items, bs, .oneOrMore hr, hj⟩
  | .zeroOrMore h => by
    obtain ⟨items, bs, hr, hj⟩ := h.reads
    exact ⟨items, bs, .zeroOrMore hr, hj⟩
  | .optional h => by
    obtain ⟨items, bs, hr, hj⟩ := h.reads
    exact ⟨items, bs, .optional hr nofun, hj⟩
  | .optional_absent hf => ⟨_, _, .optional_absent hf, .nil g⟩
  | .ignore h => by
    obtain ⟨_, bs, hr, hj⟩ := h.reads
    exact ⟨[], bs, .ignore hr, hj⟩
  | .capture h => by
    obtain ⟨items, _, hr, hj⟩ := h.reads
    exact ⟨items, _, .capture hr, hj.append (.capture _ hr)⟩
  | .transparent ha h => by
    obtain ⟨items, bs, hr, hj⟩ := h.reads
    exact ⟨items, bs, .transparent ha hr, hj⟩

theorem CapturedSeq.reads {es : List (Expr ι)} {cs rest : List Char} {taken : List (Taken ι)} :
    CapturedSeq g es cs rest taken →
      ∃ items bs, (∀ c, ReadsSeq g c es cs (.matched rest items bs)) ∧ Joins g taken bs
  | .nil _ => ⟨_, _, fun c => .nil c _, .nil g⟩
  | .cons h hs => by
    obtain ⟨_, _, hr, hj⟩ := h.reads
    obtain ⟨_, _, hrs, hjs⟩ := hs.reads
    exact ⟨_, _, fun c => .next hr (hrs c), hj.append hjs⟩

theorem CapturedMany.reads {q : Bool} {e : Expr ι} {cs rest : List Char}
    {taken : List (Taken ι)} :
    CapturedMany g q e cs rest taken →
      ∃ items bs, ReadsMany g q e cs (.matched rest items bs) ∧ Joins g taken bs
  | .done hf => ⟨_, _, .done hf, .nil g⟩
  | .idle h => by
    obtain ⟨items, bs, hr, hj⟩ := h.reads
    exact ⟨items, bs, .idle hr, hj⟩
  | .more h hl hs => by
    obtain ⟨_, _, hr, hj⟩ := h.reads
    obtain ⟨_, _, hrs, hjs⟩ := hs.reads
    exact ⟨_, _, .more hr hl hrs, hj.append hjs⟩

end

/-- If it is a match, the rest of the text is as said. -/
def Result.Leaves (P : List Char → Prop) : Result ν → Prop
  | matched rest _ _ => P rest
  | failed | aborted => True

namespace Result
variable {P Q : List Char → Prop}

theorem Leaves.imp (h : r.Leaves P) (hpq : ∀ rest, P rest → Q rest) : r.Leaves Q := by
  cases r with
  | matched rest => exact hpq rest h
  | failed | aborted => trivial

theorem Leaves.after (h : r.Leaves P) : (r.after first bs).Leaves P := by
  cases r <;> exact h

theorem leaves_of_unmatched (h : r = .failed ∨ r = .aborted) : r.Leaves P := by
  rcases h with rfl | rfl <;> trivial

end Result

mutual

/-- Of every match it can be said what its captures have taken. -/
theorem Reads.captured [BEq ι] {e : Expr ι} {cs : List Char} {r : Result ν} :
    Reads g e cs r → r.Leaves fun rest => ∃ taken, Captured g e cs rest taken
  | .literal text rest => ⟨[], .nothing nofun (.literal text rest)⟩
  | .oneOf rest h => ⟨[], .nothing nofun (.oneOf rest h)⟩
  | .any c rest => ⟨[], .nothing nofun (.any c rest)⟩
  | .commit cs => ⟨[], .nothing nofun (.commit cs)⟩
  | .not h hr => ⟨[], .nothing nofun (.not h hr)⟩
  | .optional_absent hf => ⟨[], .optional_absent hf⟩
  | .literal_failed _ | .oneOf_failed _ | .any_failed | .choice_none _ | .not_failed _
  | .acting_rejected .. => trivial
  | .seq h => h.captured.imp fun _ hc => hc.imp fun _ => .seq
  | .choice_taken h _ => h.captured.imp fun _ hc => hc.imp fun _ => .choice_taken
  | .choice_next hf h => h.captured.imp fun _ hc => hc.imp fun _ => .choice_next hf
  | .oneOrMore h => h.captured.imp fun _ hc => hc.imp fun _ => .oneOrMore
  | .zeroOrMore h => h.captured.imp fun _ hc => hc.imp fun _ => .zeroOrMore
  | .optional h _ => h.captured.imp fun _ hc => hc.imp fun _ => .optional
  | .ignore h => by
    obtain ⟨taken, hc⟩ := h.captured
    exact ⟨taken, .ignore hc⟩
  | .capture h => by
    -- What is left is the end of the text, so that there is a word that was taken.
    obtain ⟨taken, hc⟩ := h.captured
    obtain ⟨word, rfl⟩ := h.suffix
    exact ⟨_, .capture hc⟩
  | .transparent ha h => h.captured.imp fun _ hc => hc.imp fun _ => .transparent ha
  | .acting ha h hn => by
    refine ⟨[], .nothing ?_ (.acting ha h hn)⟩
    intro hb
    cases hb with
    | rule hnone =>
      rw [hnone] at ha
      cases ha
  | .ignore_unmatched _ hr | .capture_unmatched _ hr | .acting_unmatched _ _ hr =>
    Result.leaves_of_unmatched hr

theorem ReadsSeq.captured [BEq ι] {c : Bool} {es : List (Expr ι)} {cs : List Char}
    {r : Result ν} :
    ReadsSeq g c es cs r → r.Leaves fun rest => ∃ taken, CapturedSeq g es cs rest taken
  | .nil _ cs => ⟨[], .nil cs⟩
  | .commit h => by
    have hcommit (cs : List Char) : Captured g .commit cs cs [] := .nothing nofun (.commit cs)
    exact h.captured.imp fun _ hc => hc.imp fun _ => .cons (hcommit _)
  | .cons _ h hr => by
    obtain ⟨taken, hc⟩ := h.captured
    refine (hr.captured.imp fun rest hs => ?_).after
    obtain ⟨others, hs⟩ := hs
    exact ⟨taken ++ others, .cons hc hs⟩
  | .failed .. | .committed .. | .aborted .. => trivial

theorem ReadsMany.captured [BEq ι] {q : Bool} {e : Expr ι} {cs : List Char} {r : Result ν} :
    ReadsMany g q e cs r → r.Leaves fun rest => ∃ taken, CapturedMany g q e cs rest taken
  | .done hf => ⟨[], .done hf⟩
  | .idle h => by
    obtain ⟨taken, hc⟩ := h.captured
    exact ⟨taken, .idle hc⟩
  | .more h hl hr => by
    obtain ⟨taken, hc⟩ := h.captured
    refine (hr.captured.imp fun rest hs => ?_).after
    obtain ⟨others, hs⟩ := hs
    exact ⟨taken ++ others, .more hc hl hs⟩
  | .missing _ | .aborted _ => trivial

end

/-- The expression has the capture in it. Between `cs` and `rest` what is captured has matched, and
consumed the word. -/
structure Taken.Within (g : Grammar ι ν ε) (e : Expr ι) (cs rest : List Char) (x : Taken ι) :
    Prop where
  part : Part g (.capture x.name x.expr) e
  reads : ∃ tail items bindings, Reads g x.expr (x.word ++ tail) (.matched tail items bindings) ∧
    x.word ++ tail <:+ cs ∧ rest <:+ tail

namespace Taken
variable {x : Taken ι}

/-- The same of an expression around, and of a match around. -/
theorem Within.outer {whole : Expr ι} {cs' rest' : List Char} (hx : x.Within g e cs rest)
    (hpart : Part g e whole) (hcs : cs <:+ cs') (hrest : rest' <:+ rest) :
    x.Within g whole cs' rest' := by
  obtain ⟨tail, items, bindings, hr, hstart, hend⟩ := hx.reads
  exact ⟨hx.part.trans hpart, tail, items, bindings, hr, hstart.trans hcs, hrest.trans hend⟩

theorem Within.whole {whole : Expr ι} (hx : x.Within g e cs rest) (hpart : Part g e whole) :
    x.Within g whole cs rest :=
  hx.outer hpart (List.suffix_refl cs) (List.suffix_refl rest)

end Taken

theorem Captured.suffix [BEq ι] (h : Captured g e cs rest taken) : rest <:+ cs := by
  obtain ⟨_, _, hr, -⟩ := h.reads
  exact hr.suffix

theorem CapturedSeq.suffix [BEq ι] (h : CapturedSeq g es cs rest taken) : rest <:+ cs := by
  obtain ⟨_, _, hr, -⟩ := h.reads
  exact (hr false).suffix

theorem CapturedMany.suffix [BEq ι] {q : Bool} (h : CapturedMany g q e cs rest taken) :
    rest <:+ cs := by
  obtain ⟨_, _, hr, -⟩ := h.reads
  exact hr.suffix

mutual

theorem Captured.within [BEq ι] {e : Expr ι} {cs rest : List Char} {taken : List (Taken ι)} :
    Captured g e cs rest taken → ∀ x ∈ taken, x.Within g e cs rest
  | .nothing .., _, hx | .optional_absent _, _, hx => by cases hx
  | .seq h, x, hx => by
    obtain ⟨e, he, hw⟩ := h.within x hx
    exact hw.whole (.of_mem he)
  | .choice_taken h, x, hx => (h.within x hx).whole (.of_mem List.mem_cons_self)
  | .choice_next _ h, x, hx => by
    -- The choice of the other alternatives is no part of the whole one; each of them is.
    have hw := h.within x hx
    refine ⟨?_, hw.reads⟩
    cases hw.part with
    | inside he hp => exact .inside (List.mem_cons_of_mem _ he) hp
  | .oneOrMore h, x, hx => (h.within x hx).whole (.of_mem List.mem_cons_self)
  | .zeroOrMore h, x, hx => (h.within x hx).whole (.of_mem List.mem_cons_self)
  | .optional h, x, hx => (h.within x hx).whole (.of_mem List.mem_cons_self)
  | .ignore h, x, hx => (h.within x hx).whole (.of_mem List.mem_cons_self)
  | .transparent ha h, x, hx => (h.within x hx).whole (.body ha)
  | .capture h, x, hx => by
    rcases List.mem_append.1 hx with hx | hx
    · exact (h.within x hx).whole (.of_mem List.mem_cons_self)
    · obtain rfl := List.mem_singleton.1 hx
      obtain ⟨items, bs, hr, -⟩ := h.reads
      exact ⟨.here, _, items, bs, hr, List.suffix_refl _, List.suffix_refl _⟩

theorem CapturedSeq.within [BEq ι] {es : List (Expr ι)} {cs rest : List Char}
    {taken : List (Taken ι)} :
    CapturedSeq g es cs rest taken → ∀ x ∈ taken, ∃ e ∈ es, x.Within g e cs rest
  | .nil _, _, hx => by cases hx
  | .cons h hs, x, hx => by
    rcases List.mem_append.1 hx with hx | hx
    · exact ⟨_, List.mem_cons_self,
        (h.within x hx).outer .here (List.suffix_refl _) hs.suffix⟩
    · obtain ⟨e, he, hw⟩ := hs.within x hx
      exact ⟨e, List.mem_cons_of_mem _ he, hw.outer .here h.suffix (List.suffix_refl _)⟩

theorem CapturedMany.within [BEq ι] {q : Bool} {e : Expr ι} {cs rest : List Char}
    {taken : List (Taken ι)} :
    CapturedMany g q e cs rest taken → ∀ x ∈ taken, x.Within g e cs rest
  | .done _, _, hx => by cases hx
  | .idle h, x, hx => h.within x hx
  | .more h _ hs, x, hx => by
    rcases List.mem_append.1 hx with hx | hx
    · exact (h.within x hx).outer .here (List.suffix_refl _) hs.suffix
    · exact (hs.within x hx).outer .here h.suffix (List.suffix_refl _)

end

variable [BEq ι]

/-- What the captures of a match have taken, and what an action reads of that in the scope `c`. A
capture that is the only one of its name gives the very word. -/
structure Supplies (g : Grammar ι ν ε) (e : Expr ι) (cs rest : List Char) (c : Captures ν)
    (taken : List (Taken ι)) : Prop where
  within : ∀ x ∈ taken, x.Within g e cs rest
  joined : ∀ name, (∀ x ∈ taken, x.name = name → Verbatim g x.expr) →
    c.text name = String.ofList (Taken.under taken name)
  alone : ∀ x, taken.filter (·.name == x.name) = [x] → Verbatim g x.expr →
    c.text x.name = String.ofList x.word

theorem Captured.supplies (h : Captured g e cs rest taken)
    (hr : Reads g e cs (.matched rest items bs)) : Supplies g e cs rest ⟨bs⟩ taken := by
  obtain ⟨_, _, hr', hj⟩ := h.reads
  cases hr.unique hr'
  refine ⟨h.within, hj, fun x hx hv => ?_⟩
  have hall : ∀ y ∈ taken, y.name = x.name → Verbatim g y.expr := by
    intro y hy hname
    have hmem : y ∈ taken.filter (·.name == x.name) := by simp [hy, hname]
    rw [hx, List.mem_singleton] at hmem
    exact hmem ▸ hv
  rw [hj x.name hall]
  simp [Taken.under, hx]

/-- A verbatim expression that matches yields text only, and that is, joined, what the cursor went
over. The action of a rule whose body has matched is asked about a scope that has, under every name
whose captures are verbatim, the text that they have taken, in their order. -/
theorem captures_consumed_text (g : Grammar ι ν ε) :
    (∀ (e : Expr ι) (n : Nat) (k l : Cursor) (s t : State ν ε) (items : List (Item ν)),
      Verbatim g e → eval g n e k s = some (.matched l items, t) →
        ∃ words : List String, items = words.map .text ∧
          k.strip? (String.join words).toList = some l) ∧
    ∀ (id : ι) (action : Captures ν → Except ε (List ν)) (n : Nat) (k l : Cursor)
      (s t : State ν ε) (items : List (Item ν)), (g.rule id).action = some action →
      eval g n (g.rule id).body k (s.enter (g.rule id).name k.pos).openScope =
          some (.matched l items, t) →
        (evalRule g (n + 1) id k s).map Prod.fst =
            some (match action t.scope with
              | .ok nodes => .matched l (nodes.map .node)
              | .error _ => .aborted (.single [(g.rule id).name] k .action
                  s!"a valid {(g.rule id).name}")) ∧
          (∃ taken, Captured g (g.rule id).body k.rest l.rest taken) ∧
          ∀ taken, Captured g (g.rule id).body k.rest l.rest taken →
            Supplies g (g.rule id).body k.rest l.rest t.scope taken := by
  refine ⟨?_, ?_⟩
  · intro e n k l s t items hv h
    obtain ⟨r, hr, hagrees, -⟩ := reads_of_eval h
    cases hagrees with
    | matched hk hl =>
      obtain ⟨word, hword⟩ := hk
      obtain ⟨words, hitems, hcs⟩ := hr.spells hv
      rw [← hl, Cursor.strip?_rest hword] at hcs
      exact ⟨words, hitems, List.append_cancel_right hcs ▸ hword⟩
  · intro id action n k l s t items ha h
    obtain ⟨r, hr, hagrees, -⟩ := reads_of_eval h
    cases hagrees with
    | @matched _ _ _ bs _ _ hl ht =>
      subst hl
      have hscope : t.scope = ⟨bs⟩ := congrArg Captures.mk ht.scope
      refine ⟨?_, hr.captured, fun taken hc => hscope ▸ hc.supplies hr⟩
      simp only [evalRule, ha, h, Option.map_some]
      cases action t.scope <;> rfl

/-- A key of characters up to an equals sign, which is dropped. It has captures of its own. -/
theorem captures_consumed_text_key :
    let key : Expr Bool := .oneOrMore (.seq [.not (.literal "="),
      .choice [.literal "→→", .capture "last" .any], .optional (.zeroOrMore (.literal "é"))])
    let g : Grammar Bool String String :=
      ⟨[true, false], fun
        | true => .acting "entry" (.seq [.capture "key" (.rule false), .ignore (.literal "=")])
          fun c => .ok [c.text "key"]
        | false => .transparent "key" key, by rintro (_ | _) <;> simp⟩
    let k := Cursor.ofText "→éé×="
    let x : Taken Bool := ⟨"key", .rule false, "→éé×".toList⟩
    ∃ l t m u items others inner, Verbatim g (.rule false) ∧
      eval g 30 (.rule false) k .start = some (.matched l items, t) ∧
      (∃ words : List String, items = words.map .text ∧
        k.strip? (String.join words).toList = some l) ∧
      eval g 30 (g.rule true).body k (State.start.enter "entry" k.pos).openScope =
        some (.matched m others, u) ∧
      Captured g (g.rule true).body k.rest m.rest (inner ++ [x]) ∧
      inner.filter (·.name == "key") = [] ∧ u.scope.text "key" = "→éé×" ∧
      (evalRule g 31 true k .start).map Prod.fst = some (.matched m [.node "→éé×"]) := by
  intro key g k x
  have hkept : g.everyPart (Expr.passesOn g) 8 (.rule false) = true := by decide +kernel
  have hkey : Verbatim g (.rule false) := .of_everyPart hkept
  have hfirst : (eval g 30 (.rule false) k .start).map Prod.fst =
      some (.matched ⟨['='], ⟨9, 1, 5⟩⟩ [.text "→", .text "é", .text "é", .text "×"]) := by
    decide +kernel
  have hsecond : (eval g 30 (g.rule true).body k (State.start.enter "entry" k.pos).openScope).map
      Prod.fst = some (.matched ⟨[], ⟨10, 1, 6⟩⟩
        [.text "→", .text "é", .text "é", .text "×"]) := by
    decide +kernel
  obtain ⟨⟨_, t⟩, h, rfl⟩ := Option.map_eq_some_iff.1 hfirst
  obtain ⟨⟨_, u⟩, h', rfl⟩ := Option.map_eq_some_iff.1 hsecond
  obtain ⟨hspells, hasks⟩ := captures_consumed_text g
  obtain ⟨hrule, -, hgives⟩ := hasks true _ _ _ _ _ _ _ rfl h'
  obtain ⟨inner, hinner⟩ : ∃ inner, Captured g (.rule false) k.rest ['='] inner := by
    obtain ⟨r, hr, hagrees, -⟩ := reads_of_eval h
    cases hagrees with
    | matched _ hl =>
      subst hl
      exact hr.captured
  have hother : g.everyPart (fun | .capture name _ => name != "key" | _ => true) 8 (.rule false) =
      true := by
    decide +kernel
  have hnone : inner.filter (·.name == "key") = [] := by
    simp only [List.filter_eq_nil_iff, beq_iff_eq]
    intro y hy
    exact bne_iff_ne.1 ((hinner.within y hy).part.of_everyPart hother)
  have hx : Captured g (.capture "key" (.rule false)) (x.word ++ ['=']) ['='] (inner ++ [x]) :=
    .capture hinner
  have hsign : Captured g (.ignore (.literal "=")) ['='] [] [] :=
    .ignore (.nothing nofun (.literal "=" []))
  have hcaptured : Captured g (g.rule true).body k.rest [] (inner ++ [x]) := by
    rw [← List.append_nil (inner ++ [x])]
    exact .seq (.cons hx (.cons hsign (.nil [])))
  have htext : u.scope.text "key" = "→éé×" :=
    (hgives _ hcaptured).alone x (by simp [hnone, x]) hkey
  refine ⟨_, t, _, u, _, _, inner, hkey, h, hspells _ _ _ _ _ _ _ hkey h, h', hcaptured, hnone,
    htext, ?_⟩
  rw [hrule, htext]
  rfl

end Fleet.Peg
