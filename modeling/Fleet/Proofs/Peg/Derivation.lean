import Fleet.Peg.Semantics
import Fleet.Text.Language
/-!
How matches are put together: of characters of a class (`reads_run`), of the elements of a list
rule (`reads_list`), and of parts of which only the nodes matter (`Takes`).
-/

namespace Fleet.Peg
open Fleet.Text

variable {ι ν ε : Type} {g : Grammar ι ν ε} {e : Expr ι} {es : List (Expr ι)}
  {cs rest end_ : List Char} {q c : Bool} {cls : CharClass} {w : List Char}

/-- What a class yields for characters, one by one. -/
def textItems (w : List Char) : List (Item ν) := w.map fun c => .text c.toString

@[simp] theorem filterMap_node?_textItems (w : List Char) :
    (textItems w : List (Item ν)).filterMap Item.node? = [] := by
  simp [textItems, Item.node?]

@[simp] theorem join_textItems (w : List Char) :
    String.join ((textItems w : List (Item ν)).filterMap Item.text?) = String.ofList w := by
  induction w with
  | nil => rfl
  | cons c w ih =>
    rw [← String.toList_inj] at ih ⊢
    simpa [textItems, Item.text?] using ih

/-- The text under a name that only characters are under. -/
theorem text_textItems (name : String) (w : List Char) :
    (⟨(textItems w).map (name, ·)⟩ : Captures ν).text name = String.ofList w := by
  rw [Captures.text_named, if_pos rfl, join_textItems]

theorem literal_failed_of_ahead {text : String} (first : Char)
    (ht : text.toList.head? = some first) (h : Ahead (· ≠ first) cs) :
    Reads g (.literal text) cs .failed := by
  refine .literal_failed ?_
  intro hp
  obtain ⟨more, rfl⟩ := hp
  exact h first (by simp [ht]) rfl

theorem oneOf_failed_of_ahead (h : Ahead (cls.contains · ≠ true) cs) :
    Reads g (.oneOf cls) cs .failed := by
  refine .oneOf_failed ?_
  cases cs with
  | nil => rfl
  | cons c cs => simpa using h

/-- A class takes all of a run of its characters, and no more if none follows. -/
theorem reads_run (hw : ∀ c ∈ w, cls.contains c = true)
    (hr : Ahead (cls.contains · ≠ true) rest) :
    Reads g (.zeroOrMore (.oneOf cls)) (w ++ rest) (.matched rest (textItems w) []) := by
  refine .zeroOrMore ?_
  induction w with
  | nil => exact .done (oneOf_failed_of_ahead hr)
  | cons c w ih =>
    have h := ih fun d hd => hw d (by simp [hd])
    exact .more (.oneOf _ (hw c (by simp))) (by simp) h

/-- Where a run has to have a character, it is enough that it has one. -/
theorem reads_run_one (hne : w ≠ []) (hw : ∀ c ∈ w, cls.contains c = true)
    (hr : Ahead (cls.contains · ≠ true) rest) :
    Reads g (.oneOrMore (.oneOf cls)) (w ++ rest) (.matched rest (textItems w) []) := by
  obtain ⟨c, w, rfl⟩ := List.exists_cons_of_ne_nil hne
  have h : Reads g _ (w ++ rest) _ := reads_run (fun d hd => hw d (by simp [hd])) hr
  cases h with
  | zeroOrMore h => exact .oneOrMore (.more (.oneOf _ (hw c (by simp))) (by simp) h)

/-- A match of an action rule that makes one node. -/
theorem Reads.node {id : ι} {action : Captures ν → Except ε (List ν)} {items : List (Item ν)}
    {bs : List (String × Item ν)} {n : ν} (ha : (g.rule id).action = some action)
    (h : Reads g (g.rule id).body cs (.matched rest items bs)) (hn : action ⟨bs⟩ = .ok [n]) :
    Reads g (.rule id) cs (.matched rest [.node n] []) :=
  .acting ha h hn

/-- A sequence fails where its second element does. -/
theorem Reads.seq_failed_second {e' : Expr ι} {items : List (Item ν)}
    {bs : List (String × Item ν)} (h : Reads g e cs (.matched rest items bs))
    (h' : Reads g e' rest .failed) (hc : e ≠ .commit) :
    Reads g (.seq (e :: e' :: es)) cs .failed := by
  have hothers : Reads g (.seq (e' :: es)) rest .failed := h'.seq_failed
  cases hothers with
  | seq hothers => exact .seq (.cons hc h hothers)

/-- A match up to `rest` that binds nothing, of which only the nodes are known. -/
def Takes (g : Grammar ι ν ε) (e : Expr ι) (cs rest : List Char) (nodes : List ν) : Prop :=
  ∃ items, Reads g e cs (.matched rest items []) ∧ items.filterMap Item.node? = nodes

namespace Takes

theorem of_text {w : List Char} (h : Reads g e cs (.matched rest (textItems w) [])) :
    Takes g e cs rest [] :=
  ⟨_, h, by simp⟩

theorem of_node {n : ν} (h : Reads g e cs (.matched rest [.node n] [])) :
    Takes g e cs rest [n] :=
  ⟨_, h, rfl⟩

theorem optional_absent (h : Reads g e cs .failed) : Takes g (.optional e) cs cs [] :=
  ⟨[], .optional_absent h, rfl⟩

theorem literal (text : String) (rest : List Char) :
    Takes g (.literal text) (text.toList ++ rest) rest [] :=
  ⟨_, .literal text rest, rfl⟩

theorem transparent {id : ι} {nodes : List ν} (ha : (g.rule id).action = none)
    (h : Takes g (g.rule id).body cs rest nodes) : Takes g (.rule id) cs rest nodes := by
  obtain ⟨items, h, hn⟩ := h
  exact ⟨items, .transparent ha h, hn⟩

end Takes

/-- Bindings by what was captured together: under each name some items, of which only the nodes are
known. -/
inductive Binds : List (String × Item ν) → List (String × List ν) → Prop where
  | nil : Binds [] []
  | cons {name : String} {items : List (Item ν)} {nodes : List ν} {bs : List (String × Item ν)}
      {bound : List (String × List ν)} (hn : items.filterMap Item.node? = nodes)
      (h : Binds bs bound) : Binds (items.map (name, ·) ++ bs) ((name, nodes) :: bound)

/-- The nodes under a name. -/
def nodesUnder (bound : List (String × List ν)) (name : String) : List ν :=
  bound.flatMap fun b => if b.1 = name then b.2 else []

@[simp] theorem nodesUnder_nil (name : String) :
    nodesUnder ([] : List (String × List ν)) name = [] :=
  rfl

@[simp] theorem nodesUnder_cons (other : String) (nodes : List ν) (bound : List (String × List ν))
    (name : String) :
    nodesUnder ((other, nodes) :: bound) name =
      (if other = name then nodes else []) ++ nodesUnder bound name :=
  rfl

@[simp] theorem nodesUnder_append (bound others : List (String × List ν)) (name : String) :
    nodesUnder (bound ++ others) name = nodesUnder bound name ++ nodesUnder others name := by
  simp [nodesUnder]

/-- What need not be captured is under its name if it is. -/
@[simp] theorem nodesUnder_ite (p : Prop) [Decidable p] (other : String) (nodes : List ν)
    (name : String) :
    nodesUnder (if p then [] else [(other, nodes)]) name =
      if other = name then if p then [] else nodes else [] := by
  split <;> simp

namespace Binds
variable {bs : List (String × Item ν)} {bound : List (String × List ν)}

theorem nodes (h : Binds bs bound) (name : String) :
    (⟨bs⟩ : Captures ν).nodes name = nodesUnder bound name := by
  induction h with
  | nil => rfl
  | cons hn _ ih =>
    rw [Captures.nodes_append, Captures.nodes_named, ih, hn]
    rfl

/-- There is no text under a name that nothing was captured under. -/
theorem text (h : Binds bs bound) {name : String} (hn : name ∉ bound.map (·.1)) :
    (⟨bs⟩ : Captures ν).text name = "" := by
  induction h with
  | nil => rfl
  | cons _ _ ih =>
    simp only [List.map_cons, List.mem_cons, not_or] at hn
    rw [Captures.text_append, Captures.text_named, if_neg (Ne.symm hn.1), ih hn.2]
    rfl

theorem single {name : String} {items : List (Item ν)} {nodes : List ν}
    (h : items.filterMap Item.node? = nodes) :
    Binds (items.map (name, ·)) [(name, nodes)] := by
  simpa using Binds.cons h .nil

theorem append {bs' : List (String × Item ν)} {others : List (String × List ν)}
    (h : Binds bs bound) (h' : Binds bs' others) : Binds (bs ++ bs') (bound ++ others) := by
  induction h with
  | nil => exact h'
  | cons hn _ ih =>
    rw [List.append_assoc]
    exact .cons hn ih

end Binds

/-- The elements of a sequence, as `Takes` is for one expression, and what they bind. -/
def TakesSeq (g : Grammar ι ν ε) (c : Bool) (es : List (Expr ι)) (cs rest : List Char)
    (nodes : List ν) (bound : List (String × List ν)) : Prop :=
  ∃ items bs, ReadsSeq g c es cs (.matched rest items bs) ∧
    items.filterMap Item.node? = nodes ∧ Binds bs bound

namespace TakesSeq
variable {nodes more : List ν} {bound : List (String × List ν)}

theorem nil : TakesSeq g c [] cs cs [] [] := ⟨[], [], .nil c cs, rfl, .nil⟩

theorem commit (h : TakesSeq g true es cs rest nodes bound) :
    TakesSeq g c (.commit :: es) cs rest nodes bound := by
  obtain ⟨items, bs, h, hn⟩ := h
  exact ⟨items, bs, .commit h, hn⟩

theorem next (h : Takes g e cs rest nodes) (hs : TakesSeq g c es rest end_ more bound) :
    TakesSeq g c (e :: es) cs end_ (nodes ++ more) bound := by
  obtain ⟨items, h, rfl⟩ := h
  obtain ⟨others, bs, hs, rfl, hb⟩ := hs
  exact ⟨items ++ others, bs, .next h hs, by simp, hb⟩

theorem capture {name : String} (h : Takes g e cs rest nodes)
    (hs : TakesSeq g c es rest end_ more bound) :
    TakesSeq g c (.capture name e :: es) cs end_ (nodes ++ more) ((name, nodes) :: bound) := by
  obtain ⟨items, h, rfl⟩ := h
  obtain ⟨others, bs, hs, rfl, hb⟩ := hs
  exact ⟨items ++ others, _, .next (.capture h) hs, by simp, .cons rfl hb⟩

/-- A part that need not be there, where it is. -/
theorem optional {es' : List (Expr ι)} {others : List (String × List ν)}
    (h : TakesSeq g false es' cs rest nodes bound)
    (hs : TakesSeq g c es rest end_ more others) :
    TakesSeq g c (.optional (.seq es') :: es) cs end_ (nodes ++ more) (bound ++ others) := by
  obtain ⟨items, bs, h, rfl, hb⟩ := h
  obtain ⟨items', bs', hs, rfl, hb'⟩ := hs
  exact ⟨items ++ items', bs ++ bs', .next (.optional (.seq h) (by simp)) hs, by simp,
    hb.append hb'⟩

theorem optional_capture {name : String} (h : Takes g e cs rest nodes)
    (hs : TakesSeq g c es rest end_ more bound) :
    TakesSeq g c (.optional (.capture name e) :: es) cs end_ (nodes ++ more)
      ((name, nodes) :: bound) := by
  obtain ⟨items, h, rfl⟩ := h
  obtain ⟨others, bs, hs, rfl, hb⟩ := hs
  exact ⟨items ++ others, _, .next (.optional (.capture h) (by simp)) hs, by simp, .cons rfl hb⟩

/-- A match of the body of an action rule, and what its action makes of the nodes captured. -/
theorem node {id : ι} {action : Captures ν → Except ε (List ν)} {n : ν}
    (ha : (g.rule id).action = some action) (hbody : (g.rule id).body = .seq es)
    (h : TakesSeq g false es cs rest nodes bound)
    (hn : ∀ bs, Binds bs bound → action ⟨bs⟩ = .ok [n]) :
    Reads g (.rule id) cs (.matched rest [.node n] []) := by
  obtain ⟨items, bs, h, -, hb⟩ := h
  exact .node ha (by rw [hbody]; exact .seq h) (hn bs hb)

end TakesSeq

theorem Takes.seq {nodes : List ν} (h : TakesSeq g false es cs rest nodes []) :
    Takes g (.seq es) cs rest nodes := by
  obtain ⟨items, bs, h, hn, ⟨⟩⟩ := h
  exact ⟨items, .seq h, hn⟩

/-- A list rule makes its node of the nodes of its elements. -/
theorem Reads.listOf {id element : ι} {sep : Expr ι} {name : String}
    {make : List ν → Except ε ν} {mid : List Char} {first n : ν} {others : List ν}
    (hid : g.rule id = .listOf name element sep make)
    (hfirst : Takes g (.rule element) cs mid [first])
    (hrest : Takes g (.zeroOrMore (.seq [.ignore sep, .rule element])) mid rest others)
    (hmake : make (first :: others) = .ok n) :
    Reads g (.rule id) cs (.matched rest [.node n] []) := by
  refine TakesSeq.node (by rw [hid]; rfl) (by rw [hid]; rfl)
    (.capture hfirst (.capture hrest .nil)) fun bs hb => ?_
  have hnodes : Rule.listNodes ⟨bs⟩ = first :: others := by
    simp [Rule.listNodes, hb.nodes]
  rw [hnodes, hmake]
  rfl

theorem Reads.listOf_failed {id element : ι} {sep : Expr ι} {name : String}
    {make : List ν → Except ε ν} (hid : g.rule id = .listOf name element sep make)
    (h : Reads g (.rule element) cs .failed) : Reads g (.rule id) cs .failed := by
  refine .acting_unmatched (by rw [hid]; rfl) ?_ (.inl rfl)
  rw [hid]
  exact .seq_failed (.capture_unmatched h (.inl rfl))

section Lists

/-- No element follows where no separator does. -/
theorem stops_of_separator {sep : Expr ι} {element : ι} (h : Reads g sep rest .failed) :
    Reads g (.seq [.ignore sep, .rule element]) rest .failed :=
  .seq_failed (.ignore_unmatched h (.inl rfl))

/-- A separator that no element follows is given back. -/
theorem stops_of_element {sep : Expr ι} {element : ι} {mid : List Char}
    (hs : Takes g sep rest mid []) (h : Reads g (.rule element) mid .failed) :
    Reads g (.seq [.ignore sep, .rule element]) rest .failed := by
  obtain ⟨items, hi, -⟩ := hs
  exact .seq_failed_second (.ignore hi) h nofun

variable {α : Type}

/-- Elements that are read one at a time wherever `Follow` holds of what comes next, which it does
of any separator. -/
structure ReadsEach (g : Grammar ι ν ε) (element : ι) (sep : Expr ι) (lang : α → Language)
    (node : α → ν) (separator : Language) (Follow : List Char → Prop) (as : List α) : Prop where
  reads : ∀ a ∈ as, ∀ t rest, lang a t → Follow rest →
    Reads g (.rule element) (t ++ rest) (.matched rest [.node (node a)] [])
  separates : ∀ a ∈ as, ∀ s t rest, separator s → lang a t →
    Takes g sep (s ++ (t ++ rest)) (t ++ rest) []
  ne_nil : ∀ s, separator s → s ≠ []
  follow : ∀ s rest, separator s → Follow (s ++ rest)

namespace ReadsEach

variable {as : List α} {lang : α → Language} {node : α → ν} {separator : Language}
  {Follow : List Char → Prop} {element : ι} {sep : Expr ι}

theorem tail {a : α} (h : ReadsEach g element sep lang node separator Follow (a :: as)) :
    ReadsEach g element sep lang node separator Follow as where
  reads b hb := h.reads b (by simp [hb])
  separates b hb := h.separates b (by simp [hb])
  ne_nil := h.ne_nil
  follow := h.follow

/-- What may follow an element is there, whether or not one more comes. -/
theorem follow_others (h : ReadsEach g element sep lang node separator Follow as)
    (hrest : Follow rest)
    (hw : Language.concat ((as.map lang).map (Language.append separator)) w) :
    Follow (w ++ rest) := by
  cases as with
  | nil => obtain rfl := hw; exact hrest
  | cons a as =>
    obtain ⟨_, u, rfl, ⟨s, t, rfl, hs, -⟩, -⟩ := hw
    simpa using h.follow s _ hs

/-- One more element with the separator before it, which is not nothing. -/
theorem next {a : α} {s t : List Char}
    (h : ReadsEach g element sep lang node separator Follow (a :: as)) (hs : separator s)
    (ha : lang a t) (hrest : Follow rest) :
    Reads g (.seq [.ignore sep, .rule element]) (s ++ (t ++ rest))
        (.matched rest [.node (node a)] []) ∧
      rest.length < (s ++ (t ++ rest)).length := by
  have helem := h.reads a (by simp) t rest ha hrest
  obtain ⟨items, hi, -⟩ := h.separates a (by simp) s t rest hs ha
  refine ⟨.seq (.next (.ignore hi) (.next helem (.nil _ _))), ?_⟩
  have := List.length_pos_iff.2 (h.ne_nil s hs)
  simp only [List.length_append]
  omega

/-- Elements each with a separator before it are repeated up to where no more follow. -/
theorem others (h : ReadsEach g element sep lang node separator Follow as) (hrest : Follow rest)
    (hstop : Reads g (.seq [.ignore sep, .rule element]) rest .failed)
    (ht : Language.concat ((as.map lang).map (Language.append separator)) w) :
    Reads g (.zeroOrMore (.seq [.ignore sep, .rule element])) (w ++ rest)
      (.matched rest ((as.map node).map .node) []) := by
  refine .zeroOrMore ?_
  induction as generalizing w with
  | nil => obtain rfl := ht; exact .done hstop
  | cons a as ih =>
    obtain ⟨_, u, rfl, ⟨s, t, rfl, hs, ha⟩, hu⟩ := ht
    obtain ⟨hfirst, hlen⟩ := h.next hs ha (h.tail.follow_others hrest hu)
    rw [List.append_assoc, List.append_assoc]
    exact .more hfirst hlen (ih h.tail hu)

/-- A list rule takes its elements with a separator between every two, up to where no separator is
followed by one more. -/
theorem list (h : ReadsEach g element sep lang node separator Follow as) {id : ι} {name : String}
    {make : List ν → Except ε ν} {n : ν} (hid : g.rule id = .listOf name element sep make)
    (hmake : make (as.map node) = .ok n) (hne : as ≠ []) (hrest : Follow rest)
    (hstop : Reads g (.seq [.ignore sep, .rule element]) rest .failed)
    (ht : Language.joined separator (as.map lang) w) :
    Reads g (.rule id) (w ++ rest) (.matched rest [.node n] []) := by
  obtain ⟨a, as, rfl⟩ := List.exists_cons_of_ne_nil hne
  rw [List.map_cons, Language.joined_cons] at ht
  obtain ⟨t, u, rfl, ha, hu⟩ := ht
  have hfirst := h.reads a (by simp) t (u ++ rest) ha (h.tail.follow_others hrest hu)
  rw [List.append_assoc]
  refine .listOf hid (.of_node hfirst) ⟨_, h.tail.others hrest hstop hu, ?_⟩ hmake
  simp [Function.comp_def]

end ReadsEach

end Lists

end Fleet.Peg
