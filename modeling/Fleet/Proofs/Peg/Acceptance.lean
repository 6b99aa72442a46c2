import Fleet.Proofs.Peg.Consumption
import Fleet.Proofs.Peg.Derivation
/-!
How matches come apart. What an expression accepts follows from what its parts accept, up to rules
with an action (`Accepts.acting`) and the elements of a list rule (`Accepts.list`).
-/

namespace Fleet.Peg
open Fleet.Text Language

variable {ι ν ε α : Type} {g : Grammar ι ν ε} {e : Expr ι} {es : List (Expr ι)}
  {cs rest t : List Char} {items : List (Item ν)} {bs : List (String × Item ν)} {q c : Bool}

/-- Every match takes a text and yields and binds items as `P` says. -/
def Accepts (g : Grammar ι ν ε) (e : Expr ι)
    (P : List Char → List (Item ν) → List (String × Item ν) → Prop) : Prop :=
  ∀ ⦃cs rest items bs⦄, Reads g e cs (.matched rest items bs) → ∃ t, cs = t ++ rest ∧ P t items bs

/-- As `Accepts`, but only before texts that `I` holds of, and `J` holds of what a match leaves. -/
def AcceptsFrom (g : Grammar ι ν ε) (I : List Char → Prop) (e : Expr ι)
    (P : List Char → List (Item ν) → List (String × Item ν) → Prop) (J : List Char → Prop) : Prop :=
  ∀ ⦃cs rest items bs⦄, I cs → Reads g e cs (.matched rest items bs) →
    J rest ∧ ∃ t, cs = t ++ rest ∧ P t items bs

/-- The elements of a sequence, as `Accepts` is for one expression. Of what they yield only the
nodes are known. -/
def AcceptsSeq (g : Grammar ι ν ε) (c : Bool) (es : List (Expr ι))
    (P : List Char → List ν → List (String × Item ν) → Prop) : Prop :=
  ∀ ⦃cs rest items bs⦄, ReadsSeq g c es cs (.matched rest items bs) →
    ∃ t, cs = t ++ rest ∧ P t (items.filterMap Item.node?) bs

/-- Text of a language that no nodes are made of. -/
def Skipped (p : Language) (t : List Char) (items : List (Item ν))
    (bs : List (String × Item ν)) : Prop :=
  p t ∧ items.filterMap Item.node? = [] ∧ bs = []

/-- Text of a language that is yielded as it is. -/
def Spelled (p : Language) (t : List Char) (items : List (Item ν))
    (bs : List (String × Item ν)) : Prop :=
  Skipped p t items bs ∧ String.join (items.filterMap Item.text?) = String.ofList t

/-- Text of which one node is made. -/
def Made (good : α → Prop) (node : α → ν) (lang : α → Language) (t : List Char)
    (items : List (Item ν)) (bs : List (String × Item ν)) : Prop :=
  ∃ a, good a ∧ lang a t ∧ items.filterMap Item.node? = [node a] ∧ bs = []

/-- Text of which an action makes one node, from what was bound. -/
def Makes (action : Captures ν → Except ε (List ν)) (good : α → Prop) (node : α → ν)
    (lang : α → Language) (t : List Char) (_ : List (Item ν)) (bs : List (String × Item ν)) : Prop :=
  ∃ a, good a ∧ lang a t ∧ action ⟨bs⟩ = .ok [node a]

/-- Any number of matches, one after the other. -/
inductive Repeated (P : List Char → List (Item ν) → List (String × Item ν) → Prop) :
    List Char → List (Item ν) → List (String × Item ν) → Prop where
  | nil : Repeated P [] [] []
  | cons {t t' : List Char} {items items' : List (Item ν)} {bs bs' : List (String × Item ν)}
      (h : P t items bs) (h' : Repeated P t' items' bs') :
      Repeated P (t ++ t') (items ++ items') (bs ++ bs')

namespace Spelled
variable {p p' : Language} {t' : List Char} {items' : List (Item ν)}
  {bs' : List (String × Item ν)}

theorem append (h : Spelled p t items bs) (h' : Spelled p' t' items' bs') :
    Spelled (p.append p') (t ++ t') (items ++ items') (bs ++ bs') := by
  obtain ⟨⟨hp, hn, rfl⟩, ht⟩ := h
  obtain ⟨⟨hp', hn', rfl⟩, ht'⟩ := h'
  refine ⟨⟨append_intro hp hp', by simp [hn, hn'], rfl⟩, ?_⟩
  rw [List.filterMap_append, String.join_append, ht, ht', ← String.ofList_append]

theorem imp (h : Spelled p t items bs) (hp : ∀ t, p t → p' t) : Spelled p' t items bs :=
  ⟨⟨hp t h.1.1, h.1.2⟩, h.2⟩

theorem repeated (h : Repeated (Spelled p) t items bs) : Spelled (Star p) t items bs := by
  induction h with
  | nil => exact ⟨⟨.nil, rfl, rfl⟩, rfl⟩
  | cons ha _ ih =>
    refine (ha.append ih).imp ?_
    intro _ hp
    obtain ⟨a, b, rfl, ha, hb⟩ := hp
    exact .cons ha hb

end Spelled

/-! ## Expressions -/

/-- A repetition is over before its first failure or after its first match of nothing. -/
theorem AcceptsFrom.many {I : List Char → Prop}
    {P : List Char → List (Item ν) → List (String × Item ν) → Prop} (h : AcceptsFrom g I e P I)
    (hi : I cs) (hr : ReadsMany g q e cs (.matched rest items bs)) :
    I rest ∧ ∃ t, cs = t ++ rest ∧ Repeated P t items bs ∧ (q = true →
      ∃ u v i j b b', t = u ++ v ∧ items = i ++ j ∧ bs = b ++ b' ∧ P u i b ∧
        Repeated P v j b') := by
  induction hn : cs.length using Nat.strongRecOn generalizing q cs items bs with
  | ind n ih =>
    rcases hr.of_matched with ⟨-, rfl, rfl, rfl, rfl⟩ | ⟨hone, rfl⟩ |
      ⟨_, _, _, _, _, hone, hl, hmany, rfl, rfl⟩
    · exact ⟨hi, [], rfl, .nil, by simp⟩
    · obtain ⟨-, t, ht, hp⟩ := h hi hone
      have hall : Repeated P (t ++ []) (items ++ []) (bs ++ []) := .cons hp .nil
      exact ⟨hi, t, ht, by simpa using hall,
        fun _ => ⟨t, [], items, [], bs, [], by simp, by simp, by simp, hp, .nil⟩⟩
    · obtain ⟨hmid, t, rfl, hp⟩ := h hi hone
      obtain ⟨hrest, t', rfl, hall, -⟩ := ih _ (hn ▸ hl) hmid hmany rfl
      exact ⟨hrest, t ++ t', by simp, .cons hp hall,
        fun _ => ⟨_, _, _, _, _, _, rfl, rfl, rfl, hp, hall⟩⟩

theorem AcceptsFrom.capture {I J : List Char → Prop}
    {P : List Char → List (Item ν) → List (String × Item ν) → Prop} {name : String}
    (h : AcceptsFrom g I e P J) :
    AcceptsFrom g I (.capture name e)
      (fun t items bs => ∃ b, bs = b ++ items.map (name, ·) ∧ P t items b) J := by
  intro cs rest items bs hcs hr
  obtain ⟨_, hinner, rfl⟩ := hr.of_capture
  obtain ⟨hrest, t, rfl, ht⟩ := h hcs hinner
  exact ⟨hrest, t, rfl, _, rfl, ht⟩

namespace Accepts
variable {P Q : List Char → List (Item ν) → List (String × Item ν) → Prop} {p p' : Language}

theorem imp (h : Accepts g e P) (hpq : ∀ t items bs, P t items bs → Q t items bs) :
    Accepts g e Q := by
  intro cs rest items bs hr
  obtain ⟨t, rfl, hp⟩ := h hr
  exact ⟨t, rfl, hpq t items bs hp⟩

theorem anywhere (h : Accepts g e P) : AcceptsFrom g (fun _ => True) e P fun _ => True :=
  fun _ _ _ _ _ hr => ⟨trivial, h hr⟩

theorem literal (text : String) : Accepts g (.literal text) (Spelled (word text)) := by
  intro cs rest items bs h
  cases h with
  | literal => exact ⟨text.toList, rfl, ⟨rfl, rfl, rfl⟩, by simp⟩

theorem oneOf (cls : CharClass) :
    Accepts g (.oneOf cls) (Spelled fun t => ∃ c, cls.contains c = true ∧ t = [c]) := by
  intro cs rest items bs h
  cases h with
  | @oneOf _ c _ hc => exact ⟨[c], rfl, ⟨⟨c, hc, rfl⟩, rfl, rfl⟩, by simp⟩

theorem choice (h : ∀ e ∈ es, Accepts g e P) : Accepts g (.choice es) P := by
  intro cs rest items bs hr
  obtain ⟨e, he, hr⟩ := hr.of_choice
  exact h e he hr

theorem ignore (h : Accepts g e (Skipped p)) : Accepts g (.ignore e) (Skipped p) := by
  intro cs rest items bs hr
  obtain ⟨rfl, _, hinner⟩ := hr.of_ignore
  obtain ⟨t, rfl, ht, -, hb⟩ := h hinner
  exact ⟨t, rfl, ht, rfl, hb⟩

theorem capture {name : String} (h : Accepts g e P) :
    Accepts g (.capture name e) fun t items bs =>
      ∃ b, bs = b ++ items.map (name, ·) ∧ P t items b :=
  fun _ _ _ _ hr => (h.anywhere.capture trivial hr).2

theorem transparent {id : ι} (ha : (g.rule id).action = none) (h : Accepts g (g.rule id).body P) :
    Accepts g (.rule id) P :=
  fun _ _ _ _ hr => h (hr.of_transparent ha)

/-- An action rule makes nodes of what its body captures. -/
theorem acting {id : ι} {action : Captures ν → Except ε (List ν)}
    (ha : (g.rule id).action = some action) (h : Accepts g (g.rule id).body P) :
    Accepts g (.rule id) fun t items bs => bs = [] ∧ ∃ i b nodes, P t i b ∧
      action ⟨b⟩ = .ok nodes ∧ items = nodes.map .node := by
  intro cs rest items bs hr
  obtain ⟨rfl, i, b, nodes, hbody, hn, rfl⟩ := hr.of_acting ha
  obtain ⟨t, rfl, ht⟩ := h hbody
  exact ⟨t, rfl, rfl, i, b, nodes, ht, hn, rfl⟩

theorem skip (h : Accepts g e (Spelled p)) : Accepts g e (Skipped p) :=
  h.imp fun _ _ _ hs => hs.1

theorem many (h : Accepts g e P) (hr : ReadsMany g q e cs (.matched rest items bs)) :
    ∃ t, cs = t ++ rest ∧ Repeated P t items bs ∧ (q = true →
      ∃ u v i j b b', t = u ++ v ∧ items = i ++ j ∧ bs = b ++ b' ∧ P u i b ∧
        Repeated P v j b') :=
  (h.anywhere.many trivial hr).2

theorem zeroOrMore (h : Accepts g e P) : Accepts g (.zeroOrMore e) (Repeated P) := by
  intro cs rest items bs hr
  cases hr with
  | zeroOrMore hr =>
    obtain ⟨t, rfl, hall, -⟩ := h.many hr
    exact ⟨t, rfl, hall⟩

theorem star (h : Accepts g e (Spelled p)) : Accepts g (.zeroOrMore e) (Spelled (Star p)) :=
  h.zeroOrMore.imp fun _ _ _ => Spelled.repeated

theorem plus (h : Accepts g e (Spelled p)) : Accepts g (.oneOrMore e) (Spelled p.plus) := by
  intro cs rest items bs hr
  cases hr with
  | oneOrMore hr =>
    obtain ⟨_, rfl, -, hall⟩ := h.many hr
    obtain ⟨u, v, i, j, b, b', rfl, rfl, rfl, hp, hall⟩ := hall rfl
    exact ⟨_, rfl, hp.append (.repeated hall)⟩

/-- Text after text is text. -/
theorem spelled_seq {e' : Expr ι} (h : Accepts g e (Spelled p)) (h' : Accepts g e' (Spelled p')) :
    Accepts g (.seq [e, e']) (Spelled (p.append p')) := by
  intro cs rest items bs hr
  cases hr with
  | seq hr =>
    obtain ⟨_, _, _, _, _, hfirst, hs, rfl, rfl⟩ := ReadsSeq.cons_iff.1 hr
    obtain ⟨_, _, _, _, _, hsecond, hnil, rfl, rfl⟩ := ReadsSeq.cons_iff.1 hs
    cases hnil
    obtain ⟨t, rfl, ht⟩ := h hfirst
    obtain ⟨t', rfl, ht'⟩ := h' hsecond
    exact ⟨t ++ t', by simp, by simpa using ht.append ht'⟩

end Accepts

/-! ## Sequences -/

namespace AcceptsSeq
variable {P : List Char → List (Item ν) → List (String × Item ν) → Prop} {p : Language}
  {Q : List Char → List ν → List (String × Item ν) → Prop}

theorem imp {R : List Char → List ν → List (String × Item ν) → Prop} (h : AcceptsSeq g c es Q)
    (hqr : ∀ t nodes bs, Q t nodes bs → R t nodes bs) : AcceptsSeq g c es R := by
  intro cs rest items bs hr
  obtain ⟨t, rfl, hq⟩ := h hr
  exact ⟨t, rfl, hqr _ _ _ hq⟩

theorem nil : AcceptsSeq (ν := ν) g c [] fun t nodes bs => t = [] ∧ nodes = [] ∧ bs = [] := by
  intro cs rest items bs h
  cases h with
  | nil => exact ⟨[], rfl, rfl, rfl, rfl⟩

theorem commit (h : AcceptsSeq g true es Q) : AcceptsSeq g c (.commit :: es) Q := by
  intro cs rest items bs hr
  generalize hres : Result.matched rest items bs = r at hr
  cases hr with
  | commit hr => subst hres; exact h hr
  | cons hc => exact absurd rfl hc
  | failed | committed | aborted => cases hres

/-- One element more of a sequence. -/
theorem next (h : Accepts g e P) (hs : AcceptsSeq g c es Q) :
    AcceptsSeq g c (e :: es) fun t nodes bs => ∃ u v i more b b', t = u ++ v ∧
      nodes = i.filterMap Item.node? ++ more ∧ bs = b ++ b' ∧ P u i b ∧ Q v more b' := by
  intro cs rest items bs hr
  obtain ⟨_, _, _, _, _, hfirst, hseq, rfl, rfl⟩ := ReadsSeq.cons_iff.1 hr
  obtain ⟨u, rfl, hp⟩ := h hfirst
  obtain ⟨v, rfl, hq⟩ := hs hseq
  exact ⟨u ++ v, by simp, u, v, _, _, _, _, rfl, by simp, rfl, hp, hq⟩

/-- An element of which only the text matters. -/
theorem skip (h : Accepts g e (Skipped p)) (hs : AcceptsSeq g c es Q)
    :
    AcceptsSeq g c (e :: es) fun t nodes bs => ∃ u v, t = u ++ v ∧ p u ∧ Q v nodes bs := by
  intro cs rest items bs hr
  obtain ⟨_, rfl, u, v, i, more, b, b', rfl, hn, rfl, ⟨hu, hi, rfl⟩, hq⟩ := next h hs hr
  rw [hn, hi]
  exact ⟨_, rfl, u, v, rfl, hu, hq⟩

/-- An element that is captured and of which one node is made. -/
theorem capture {name : String} {good : α → Prop} {node : α → ν} {lang : α → Language}
    (h : Accepts g e (Made good node lang)) (hs : AcceptsSeq g c es Q) :
    AcceptsSeq g c (.capture name e :: es) fun t nodes bs => ∃ a, good a ∧
      ∃ u v, t = u ++ v ∧ lang a u ∧ ∃ (i : List (Item ν)) (more : List ν) (b : _),
        i.filterMap Item.node? = [node a] ∧ nodes = node a :: more ∧
          bs = i.map (name, ·) ++ b ∧ Q v more b := by
  intro cs rest items bs hr
  obtain ⟨_, rfl, u, v, i, more, _, b', rfl, hn, rfl, ⟨_, rfl, a, ha, hu, hi, rfl⟩, hq⟩ :=
    next h.capture hs hr
  exact ⟨_, rfl, a, ha, u, v, rfl, hu, i, more, b', hi, by rw [hn, hi]; rfl, rfl, hq⟩

end AcceptsSeq

/-- A match of a sequence of elements, of which only the nodes are known. -/
theorem Accepts.seq {Q : List Char → List ν → List (String × Item ν) → Prop}
    (h : AcceptsSeq g false es Q) :
    Accepts g (.seq es) fun t items bs => Q t (items.filterMap Item.node?) bs := by
  intro cs rest items bs hr
  cases hr with
  | seq hr => exact h hr

/-- A sequence of whose captures an action makes one node. -/
theorem Accepts.makes {action : Captures ν → Except ε (List ν)}
    {Q : List Char → List ν → List (String × Item ν) → Prop} {good : α → Prop} {node : α → ν}
    {lang : α → Language} (h : AcceptsSeq g false es Q)
    (hn : ∀ t nodes bs, Q t nodes bs → ∃ a, good a ∧ lang a t ∧ action ⟨bs⟩ = .ok [node a]) :
    Accepts g (.seq es) (Makes action good node lang) :=
  (Accepts.seq h).imp fun t _ bs hq => hn t _ bs hq

/-- The rule of an action that makes one node of what its body captures. -/
theorem AcceptsFrom.made {I J : List Char → Prop} {id : ι}
    {action : Captures ν → Except ε (List ν)} {good : α → Prop} {node : α → ν} {lang : α → Language}
    (ha : (g.rule id).action = some action)
    (h : AcceptsFrom g I (g.rule id).body (Makes action good node lang) J) :
    AcceptsFrom g I (.rule id) (Made good node lang) J := by
  intro cs rest items bs hcs hr
  obtain ⟨rfl, i, b, made, hbody, hact, rfl⟩ := hr.of_acting ha
  obtain ⟨hrest, t, rfl, a, hgood, hlang, hok⟩ := h hcs hbody
  obtain rfl : [node a] = made := Except.ok.inj (hok.symm.trans hact)
  exact ⟨hrest, t, rfl, a, hgood, hlang, rfl, rfl⟩

theorem Accepts.made {id : ι} {action : Captures ν → Except ε (List ν)} {good : α → Prop}
    {node : α → ν} {lang : α → Language} (ha : (g.rule id).action = some action)
    (h : Accepts g (g.rule id).body (Makes action good node lang)) :
    Accepts g (.rule id) (Made good node lang) :=
  fun _ _ _ _ hr => (h.anywhere.made ha trivial hr).2

/-- Such an action refuses no match of the body. -/
theorem Accepts.not_refused {action : Captures ν → Except ε (List ν)} {good : α → Prop}
    {node : α → ν} {lang : α → Language} (h : Accepts g e (Makes action good node lang))
    (hr : Reads g e cs (.matched rest items bs)) (error : ε) : action ⟨bs⟩ ≠ .error error := by
  obtain ⟨_, -, a, -, -, hok⟩ := h hr
  rw [hok]
  nofun

theorem Accepts.exists_node {good : α → Prop} {node : α → ν} {lang : α → Language}
    (h : Accepts g e (Made good node lang)) (hr : Reads g e cs (.matched rest items bs)) :
    ∃ a, items.filterMap Item.node? = [node a] := by
  obtain ⟨_, -, a, -, -, hn, -⟩ := h hr
  exact ⟨a, hn⟩

/-- An action rule whose action makes one node of the text that its body captures. -/
theorem Accepts.node_of_text {id : ι} {action : Captures ν → Except ε (List ν)} {name : String}
    {p : Language} {good : α → Prop} {node : α → ν} {lang : α → Language}
    (ha : (g.rule id).action = some action) (hbody : (g.rule id).body = .capture name e)
    (h : Accepts g e (Spelled p))
    (hn : ∀ t c made, p t → c.text name = String.ofList t → action c = .ok made →
      ∃ a, good a ∧ lang a t ∧ made = [node a]) :
    Accepts g (.rule id) (Made good node lang) := by
  have hcapture : Accepts g (.capture name e) _ := h.capture
  rw [← hbody] at hcapture
  refine (Accepts.acting ha hcapture).imp ?_
  intro t _ _ hx
  obtain ⟨rfl, i, _, made, ⟨_, rfl, ⟨hp, -, rfl⟩, ht⟩, hact, rfl⟩ := hx
  obtain ⟨a, hgood, hlang, rfl⟩ := hn t _ made hp (by simpa using ht) hact
  exact ⟨a, hgood, hlang, rfl, rfl⟩

section Lists
variable {id element : ι} {sep : Expr ι} {name : String} {make : List ν → Except ε ν}
  {good : α → Prop} {node : α → ν} {lang : α → Language} {separator : Language}

theorem Repeated.made (h : Repeated (Made good node lang) t items bs) :
    ∃ as : List α, (∀ a ∈ as, good a) ∧ concat (as.map lang) t ∧
      items.filterMap Item.node? = as.map node ∧ bs = [] := by
  induction h with
  | nil => exact ⟨[], by simp, rfl, rfl, rfl⟩
  | cons h _ ih =>
    obtain ⟨a, ha, ht, hn, rfl⟩ := h
    obtain ⟨as, has, hts, hns, rfl⟩ := ih
    exact ⟨a :: as, by simpa [ha] using has, append_intro ht hts, by simp [hn, hns], rfl⟩

/-- An element with a separator before it. -/
theorem Accepts.separated (h : Accepts g (.rule element) (Made good node lang))
    (hsep : Accepts g sep (Skipped separator)) :
    Accepts g (.seq [.ignore sep, .rule element])
      (Made good node fun a => separator.append (lang a)) := by
  refine (Accepts.seq (.skip hsep.ignore (.next h .nil))).imp ?_
  intro _ items _ hp
  obtain ⟨s, _, rfl, hs, u, _, i, _, b, _, rfl, hn, rfl, ⟨a, ha, hu, hi, rfl⟩, hp⟩ := hp
  obtain ⟨rfl, rfl, rfl⟩ := hp
  refine ⟨a, ha, append_intro hs (by simpa using hu), by rw [hn, hi, List.append_nil], rfl⟩

/-- A match of a list is one of its first element and then a repetition. -/
theorem Reads.of_listBody (h : Reads g (Rule.listBody element sep) cs (.matched rest items bs)) :
    ∃ mid i b j b', Reads g (.rule element) cs (.matched mid i b) ∧
      ReadsMany g false (.seq [.ignore sep, .rule element]) mid (.matched rest j b') ∧
      bs = b ++ i.map ("first", ·) ++ (b' ++ j.map ("rest", ·)) := by
  cases h with
  | seq h =>
    obtain ⟨_, _, _, _, _, hfirst, hs, rfl, rfl⟩ := ReadsSeq.cons_iff.1 h
    obtain ⟨_, _, _, _, _, hrest, hnil, rfl, rfl⟩ := ReadsSeq.cons_iff.1 hs
    cases hnil
    obtain ⟨_, helement, rfl⟩ := hfirst.of_capture
    obtain ⟨_, hothers, rfl⟩ := hrest.of_capture
    cases hothers with
    | zeroOrMore hmany => exact ⟨_, _, _, _, _, helement, hmany, by simp⟩

/-- A list is one element or more with a separator between every two of them. What an element leaves
may tell what the separator after it is. -/
theorem AcceptsFrom.makes_list {I J : List Char → Prop} {all : List α → ν}
    (h : AcceptsFrom g I (.rule element) (Made good node lang) J)
    (hpart : AcceptsFrom g J (.seq [.ignore sep, .rule element])
      (Made good node fun a => separator.append (lang a)) J)
    (hmake : ∀ as, make (as.map node) = .ok (all as)) :
    AcceptsFrom g I (Rule.listBody element sep) (Makes (fun c => (make (Rule.listNodes c)).map ([·]))
      (fun as => as ≠ [] ∧ ∀ a ∈ as, good a) all
      fun as : List α => joined separator (as.map lang)) J := by
  intro cs rest _ _ hcs hr
  obtain ⟨_, i, _, j, _, hfirst, hrest, rfl⟩ := hr.of_listBody
  obtain ⟨hmid, u, rfl, a, ha, hu, hi, rfl⟩ := h hcs hfirst
  obtain ⟨hend, v, rfl, hall, -⟩ := hpart.many hmid hrest
  obtain ⟨as, has, hv, hj, rfl⟩ := hall.made
  have hnodes : (Rule.listNodes ⟨[] ++ i.map ("first", ·) ++ ([] ++ j.map ("rest", ·))⟩ : List ν) =
      (a :: as).map node := by
    simp [Rule.listNodes, hi, hj]
  refine ⟨hend, u ++ v, by simp, a :: as, ⟨by simp, by simpa [ha] using has⟩, ?_, ?_⟩
  · show joined separator (lang a :: as.map lang) (u ++ v)
    rw [joined_cons]
    exact append_intro hu (by simpa [Function.comp_def] using hv)
  · simp only [hnodes, hmake]
    rfl

theorem AcceptsFrom.list {I J : List Char → Prop} {all : List α → ν}
    (hid : g.rule id = .listOf name element sep make)
    (h : AcceptsFrom g I (.rule element) (Made good node lang) J)
    (hpart : AcceptsFrom g J (.seq [.ignore sep, .rule element])
      (Made good node fun a => separator.append (lang a)) J)
    (hmake : ∀ as, make (as.map node) = .ok (all as)) :
    AcceptsFrom g I (.rule id) (Made (fun as => as ≠ [] ∧ ∀ a ∈ as, good a) all
      fun as : List α => joined separator (as.map lang)) J := by
  refine .made (by rw [hid]; rfl) ?_
  rw [hid]
  exact h.makes_list hpart hmake

theorem Accepts.makes_list {all : List α → ν}
    (h : Accepts g (.rule element) (Made good node lang)) (hsep : Accepts g sep (Skipped separator))
    (hmake : ∀ as, make (as.map node) = .ok (all as)) :
    Accepts g (Rule.listBody element sep) (Makes (fun c => (make (Rule.listNodes c)).map ([·]))
      (fun as => as ≠ [] ∧ ∀ a ∈ as, good a) all
      fun as : List α => joined separator (as.map lang)) :=
  fun _ _ _ _ hr => (h.anywhere.makes_list (h.separated hsep).anywhere hmake trivial hr).2

theorem Accepts.list {all : List α → ν} (hid : g.rule id = .listOf name element sep make)
    (h : Accepts g (.rule element) (Made good node lang)) (hsep : Accepts g sep (Skipped separator))
    (hmake : ∀ as, make (as.map node) = .ok (all as)) :
    Accepts g (.rule id) (Made (fun as => as ≠ [] ∧ ∀ a ∈ as, good a) all
      fun as : List α => joined separator (as.map lang)) :=
  fun _ _ _ _ hr => (h.anywhere.list hid (h.separated hsep).anywhere hmake trivial hr).2

end Lists

end Fleet.Peg
