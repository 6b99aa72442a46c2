import Fleet.Proofs.Peg.Acceptance
import Fleet.Proofs.Peg.Tracing
/-!
What a list rule collects. A match takes elements with a separator between every two, the action is
asked once and sees the nodes of the elements in their order, and the list goes on as long as it can
(`listOf_collects`). This holds where neither separator nor element `MayBind` anything in the scope of
the list itself: there it would be among the nodes of the elements.
-/

namespace Fleet.Peg
open Fleet.Text

variable {ι ν ε : Type} {g : Grammar ι ν ε} {e sep : Expr ι} {es : List (Expr ι)} {element : ι}
  {cs mid rest : List Char} {items : List (Item ν)} {bs : List (String × Item ν)} {r : Result ν}

/-! ## Expressions that bind nothing -/

/-- A match of the expression may bind something in the scope around it: there is a capture in it
outside lookaheads and rules with an action. -/
inductive MayBind (g : Grammar ι ν ε) : Expr ι → Prop where
  | capture (name : String) (e : Expr ι) : MayBind g (.capture name e)
  | seq {e : Expr ι} {items : List (Expr ι)} (he : e ∈ items) (h : MayBind g e) :
      MayBind g (.seq items)
  | choice {e : Expr ι} {items : List (Expr ι)} (he : e ∈ items) (h : MayBind g e) :
      MayBind g (.choice items)
  | oneOrMore {e : Expr ι} (h : MayBind g e) : MayBind g (.oneOrMore e)
  | zeroOrMore {e : Expr ι} (h : MayBind g e) : MayBind g (.zeroOrMore e)
  | optional {e : Expr ι} (h : MayBind g e) : MayBind g (.optional e)
  | ignore {e : Expr ι} (h : MayBind g e) : MayBind g (.ignore e)
  | rule {id : ι} (ha : (g.rule id).action = none) (h : MayBind g (g.rule id).body) :
      MayBind g (.rule id)

namespace Result

def Unbound : Result ν → Prop
  | matched _ _ bindings => bindings = []
  | failed | aborted => True

theorem Unbound.after {first : List (Item ν)} (h : r.Unbound) : (r.after first []).Unbound := by
  cases r <;> exact h

theorem unbound_of_unmatched (h : r = .failed ∨ r = .aborted) : r.Unbound := by
  rcases h with rfl | rfl <;> trivial

end Result

mutual

theorem Reads.unbound {e : Expr ι} {cs : List Char} {r : Result ν} :
    Reads g e cs r → ¬ MayBind g e → r.Unbound
  | .literal .., _ | .oneOf .., _ | .any .., _ | .commit _, _ | .optional_absent _, _
  | .not .., _ | .acting .., _ => rfl
  | .literal_failed _, _ | .oneOf_failed _, _ | .any_failed, _ | .choice_none _, _
  | .not_failed _, _ | .acting_rejected .., _ => trivial
  | .seq h, hb => h.unbound fun _ he hx => hb (.seq he hx)
  | .choice_taken h _, hb => h.unbound fun hx => hb (.choice List.mem_cons_self hx)
  | .choice_next _ h, hb => h.unbound fun hx => by
      cases hx with
      | choice he hx => exact hb (.choice (List.mem_cons_of_mem _ he) hx)
  | .oneOrMore h, hb => h.unbound fun hx => hb (.oneOrMore hx)
  | .zeroOrMore h, hb => h.unbound fun hx => hb (.zeroOrMore hx)
  | .optional h _, hb => h.unbound fun hx => hb (.optional hx)
  | .ignore h, hb => h.unbound fun hx => hb (.ignore hx)
  | .capture _, hb => (hb (.capture _ _)).elim
  | .transparent ha h, hb => h.unbound fun hx => hb (.rule ha hx)
  | .ignore_unmatched _ hr, _ | .capture_unmatched _ hr, _ | .acting_unmatched _ _ hr, _ =>
    Result.unbound_of_unmatched hr

theorem ReadsSeq.unbound {c : Bool} {es : List (Expr ι)} {cs : List Char} {r : Result ν} :
    ReadsSeq g c es cs r → (∀ e ∈ es, ¬ MayBind g e) → r.Unbound
  | .nil .., _ => rfl
  | .commit h, hb => h.unbound fun e he => hb e (List.mem_cons_of_mem _ he)
  | .cons _ h hr, hb => by
    obtain rfl := h.unbound (hb _ List.mem_cons_self)
    exact (hr.unbound fun e he => hb e (List.mem_cons_of_mem _ he)).after
  | .failed .., _ | .committed .., _ | .aborted .., _ => trivial

theorem ReadsMany.unbound {q : Bool} {e : Expr ι} {cs : List Char} {r : Result ν} :
    ReadsMany g q e cs r → ¬ MayBind g e → r.Unbound
  | .done _, _ => rfl
  | .idle h, hb => h.unbound hb
  | .more h _ hr, hb => by
    obtain rfl := h.unbound hb
    exact (hr.unbound hb).after
  | .missing _, _ | .aborted _, _ => trivial

end

/-! ## Elements and separators -/

/-- A separator and the element behind it. -/
structure Link (ν : Type) where
  separator : List Char
  element : List Char
  items : List (Item ν)

namespace Link

def text (x : Link ν) : List Char := x.separator ++ x.element

/-- What the links take of the text. -/
def texts (links : List (Link ν)) : List Char := links.flatMap text

@[simp] theorem texts_nil : texts ([] : List (Link ν)) = [] := rfl

@[simp] theorem texts_cons (x : Link ν) (links : List (Link ν)) :
    texts (x :: links) = x.separator ++ (x.element ++ texts links) := by
  simp [texts, text]

end Link

/-- Before `rest` each link is a match of the separator, whatever that yields, and behind it one of
the element. -/
inductive Linked (g : Grammar ι ν ε) (sep : Expr ι) (element : ι) (rest : List Char) :
    List (Link ν) → Prop where
  | nil : Linked g sep element rest []
  | cons {x : Link ν} {links : List (Link ν)} {dropped : List (Item ν)}
      (hsep : Reads g sep (x.text ++ (Link.texts links ++ rest))
        (.matched (x.element ++ (Link.texts links ++ rest)) dropped []))
      (he : Reads g (.rule element) (x.element ++ (Link.texts links ++ rest))
        (.matched (Link.texts links ++ rest) x.items []))
      (h : Linked g sep element rest links) : Linked g sep element rest (x :: links)

/-- Why there is not one link more before `rest`. -/
inductive Exhausted (g : Grammar ι ν ε) (sep : Expr ι) (element : ι) (rest : List Char) :
    List (Link ν) → Prop where
  | separator {links : List (Link ν)} (h : Reads g sep rest .failed) :
      Exhausted g sep element rest links
  /-- The separator is given back. -/
  | element {links : List (Link ν)} {mid : List Char} {items : List (Item ν)}
      {bindings : List (String × Item ν)} (hsep : Reads g sep rest (.matched mid items bindings))
      (h : Reads g (.rule element) mid .failed) : Exhausted g sep element rest links
  /-- The last link has taken nothing. -/
  | idle {links : List (Link ν)} {x : Link ν} (h : x.text = []) :
      Exhausted g sep element rest (links ++ [x])

theorem Exhausted.cons {links : List (Link ν)} (x : Link ν) (h : Exhausted g sep element rest links) :
    Exhausted g sep element rest (x :: links) := by
  cases h with
  | separator h => exact .separator h
  | element hsep h => exact .element hsep h
  | @idle links y h =>
    exact show Exhausted g sep element rest ((x :: links) ++ [y]) from .idle h

theorem Exhausted.of_failed {links : List (Link ν)}
    (h : Reads g (.seq [.ignore sep, .rule element]) rest .failed) :
    Exhausted g sep element rest links := by
  cases h with
  | seq h =>
    rcases h.of_failed (by nofun) with hf | ⟨_, _, _, hm, hs⟩
    · cases hf with
      | ignore_unmatched hf => exact .separator hf
    · rcases hs.of_failed (by nofun) with hf | ⟨_, _, _, -, hnil⟩
      · obtain ⟨-, _, hm⟩ := hm.of_ignore
        exact .element hm hf
      · cases hnil

variable [BEq ι]

/-- A separator and an element, neither of which binds anything. -/
theorem Reads.of_link (hsep : ¬ MayBind g sep) (he : ¬ MayBind g (.rule element))
    (h : Reads g (.seq [.ignore sep, .rule element]) cs (.matched rest items bs)) :
    bs = [] ∧ ∃ (x : Link ν) (dropped : List (Item ν)), x.items = items ∧ cs = x.text ++ rest ∧
      Reads g sep cs (.matched (x.element ++ rest) dropped []) ∧
      Reads g (.rule element) (x.element ++ rest) (.matched rest items []) := by
  cases h with
  | seq h =>
    obtain ⟨_, _, _, _, _, hs, hseq, rfl, rfl⟩ := ReadsSeq.cons_iff.1 h
    obtain ⟨_, i, _, _, _, hx, hnil, rfl, rfl⟩ := ReadsSeq.cons_iff.1 hseq
    cases hnil
    obtain ⟨rfl, _, hdropped⟩ := hs.of_ignore
    obtain rfl := hdropped.unbound hsep
    obtain rfl := hx.unbound he
    obtain ⟨s, rfl⟩ := hdropped.suffix
    obtain ⟨w, rfl⟩ := hx.suffix
    exact ⟨rfl, ⟨s, w, i⟩, _, by simp, by simp [Link.text], hdropped, by simpa using hx⟩

/-- What a list takes behind its first element, it takes link by link. -/
theorem ReadsMany.linked (hsep : ¬ MayBind g sep) (he : ¬ MayBind g (.rule element))
    (h : ReadsMany g false (.seq [.ignore sep, .rule element]) cs (.matched rest items bs)) :
    bs = [] ∧ ∃ links : List (Link ν), cs = Link.texts links ++ rest ∧
      items = links.flatMap Link.items ∧ Linked g sep element rest links ∧
      Exhausted g sep element rest links := by
  induction hn : cs.length using Nat.strongRecOn generalizing cs items bs with
  | ind n ih =>
    rcases h.of_matched with ⟨hf, -, rfl, rfl, rfl⟩ | ⟨hone, rfl⟩ |
      ⟨_, _, _, _, _, hone, hl, hmany, rfl, rfl⟩
    · exact ⟨rfl, [], rfl, rfl, .nil, .of_failed hf⟩
    · -- The link is kept although it takes nothing: what it yields is among the nodes.
      obtain ⟨rfl, x, dropped, rfl, hcs, hs, hx⟩ := hone.of_link hsep he
      have hnone : x.text = [] := by simpa using hcs
      have hlast : Exhausted g sep element rest ([] ++ [x]) := .idle hnone
      have hs' : Reads g sep (x.text ++ rest) (.matched (x.element ++ rest) dropped []) := by
        rwa [hnone]
      exact ⟨rfl, [x], by simpa [Link.texts] using hcs, by simp, .cons hs' hx .nil, hlast⟩
    · obtain ⟨rfl, x, _, rfl, rfl, hs, hx⟩ := hone.of_link hsep he
      obtain ⟨rfl, links, rfl, rfl, hlinked, hends⟩ := ih _ (hn ▸ hl) hmany rfl
      exact ⟨rfl, x :: links, by simp [Link.text], by simp, .cons hs hx hlinked, hends.cons x⟩

/-! ## List rules -/

/-- Elements with a separator between every two: the first and a link for each of the others. -/
structure Listing (ν : Type) where
  first : List Char
  items : List (Item ν)
  links : List (Link ν)

namespace Listing

def text (x : Listing ν) : List Char := x.first ++ Link.texts x.links

/-- The nodes of the elements, in the order of the text. -/
def nodes (x : Listing ν) : List ν :=
  (x.items ++ x.links.flatMap Link.items).filterMap Item.node?

/-- Before `rest` each part is a match of the separator or of the element. -/
structure Matches (g : Grammar ι ν ε) (sep : Expr ι) (element : ι) (rest : List Char)
    (x : Listing ν) : Prop where
  first : Reads g (.rule element) (x.text ++ rest) (.matched (Link.texts x.links ++ rest) x.items [])
  links : Linked g sep element rest x.links

end Listing

/-- The action of a list rule is asked about the nodes of the elements. -/
theorem Reads.listing (hsep : ¬ MayBind g sep) (he : ¬ MayBind g (.rule element))
    (h : Reads g (Rule.listBody element sep) cs (.matched rest items bs)) :
    ∃ x : Listing ν, cs = x.text ++ rest ∧ x.Matches g sep element rest ∧
      Exhausted g sep element rest x.links ∧ Rule.listNodes ⟨bs⟩ = x.nodes := by
  obtain ⟨_, i, _, j, _, hfirst, hmany, rfl⟩ := h.of_listBody
  obtain rfl := hfirst.unbound he
  obtain ⟨rfl, links, rfl, rfl, hlinked, hends⟩ := hmany.linked hsep he
  obtain ⟨w, rfl⟩ := hfirst.suffix
  let x : Listing ν := ⟨w, i, links⟩
  have hcs : w ++ (Link.texts links ++ rest) = x.text ++ rest := by simp [x, Listing.text]
  refine ⟨x, hcs, ⟨hcs ▸ hfirst, hlinked⟩, hends, ?_⟩
  simp [Rule.listNodes, Listing.nodes, x]

/-- What a list rule takes is elements with a separator between every two, each of which matches at
its place. Its action is asked once, and makes the one node of the nodes of the elements, in the
order of the text and without what the separators yield. The list is over where the separator fails,
where no element comes behind it, which gives the separator back, or behind a link that has taken
nothing. -/
theorem listOf_collects {id : ι} {name : String} {make : List ν → Except ε ν} {n : Nat}
    {k l : Cursor} {s t : State ν ε} (hid : g.rule id = .listOf name element sep make)
    (hsep : ¬ MayBind g sep) (he : ¬ MayBind g (.rule element))
    (h : eval g n (.rule id) k s = some (.matched l items, t)) :
    ∃ (x : Listing ν) (node : ν), k.rest = x.text ++ l.rest ∧ x.Matches g sep element l.rest ∧
      Exhausted g sep element l.rest x.links ∧ make x.nodes = .ok node ∧ items = [.node node] ∧
      ∃ m, trace g n s.frames (.rule id) k s = (0, .tried (.rule id) k) ::
        (trace g m (⟨name, k.pos⟩ :: s.frames) (Rule.listBody element sep) k
            (s.enter name k.pos).openScope ++
          [(0, .acted id k ((make x.nodes).map ([·])))]) := by
  have ha : (g.rule id).action = some fun c => (make (Rule.listNodes c)).map ([·]) := by
    rw [hid]
    rfl
  obtain ⟨m, i, b, nodes, hbody, hok, rfl, htrace⟩ := trace_of_acting ha h
  rw [hid] at hbody htrace
  obtain ⟨x, hx, hmatches, hends, hnodes⟩ := Reads.listing hsep he hbody
  rw [hnodes] at hok htrace
  cases hmake : make x.nodes with
  | error error => rw [hmake] at hok; cases hok
  | ok node =>
    rw [hmake] at hok
    cases hok
    exact ⟨x, node, hx, hmatches, hends, hmake, rfl, m, htrace⟩

/-- Letters and dashes with one comma or more between every two. A letter has a node, through a
rule without an action, and a dash has none. The last comma is not taken. -/
theorem listOf_collects_letters :
    let sep : Expr (Option Bool) := .oneOrMore (.literal ",")
    let g : Grammar (Option Bool) String String :=
      ⟨[none, some true, some false], fun
        | none => .listOf "letters" (some true) sep fun nodes => .ok (String.join nodes)
        | some true => .transparent "entry" (.choice [.rule (some false), .literal "-"])
        | some false => .acting "letter" (.capture "x" (.oneOf ⟨"a letter", [], [('a', 'z')]⟩))
          fun c => .ok [c.text "x"], by rintro (_ | _ | _) <;> simp⟩
    ∃ l t, eval g 30 (.rule none) (.ofText "a,,-,b,") .start = some (.matched l [.node "ab"], t) ∧
      l.rest = [','] ∧ ∃ x : Listing String, x.text = "a,,-,b".toList ∧
        x.Matches g sep (some true) [','] ∧ Exhausted g sep (some true) [','] x.links ∧
        String.join x.nodes = "ab" := by
  intro sep g
  have hsep : ¬ MayBind g (.oneOrMore (.literal ",")) := by
    intro hb
    cases hb with
    | oneOrMore hb => cases hb
  have he : ¬ MayBind g (.rule (some true)) := by
    intro hb
    cases hb with
    | rule _ hb =>
      change MayBind g (.choice [.rule (some false), .literal "-"]) at hb
      generalize hes : [Expr.rule (some false), .literal "-"] = es at hb
      cases hb with
      | choice hmem hb =>
        subst hes
        simp only [List.mem_cons, List.not_mem_nil, or_false] at hmem
        rcases hmem with rfl | rfl
        · cases hb with | rule ha => cases ha
        · cases hb
  have hrun : (eval g 30 (.rule none) (.ofText "a,,-,b,") .start).map Prod.fst =
      some (.matched ⟨[','], ⟨6, 1, 7⟩⟩ [.node "ab"]) := by decide +kernel
  obtain ⟨⟨_, t⟩, h, rfl⟩ := Option.map_eq_some_iff.1 hrun
  have hid : g.rule none = .listOf "letters" (some true) sep fun nodes => .ok (String.join nodes) :=
    rfl
  obtain ⟨x, node, hx, hmatches, hends, hmake, hnode, -⟩ := listOf_collects hid hsep he h
  refine ⟨_, t, h, rfl, x, ?_, hmatches, hends, ?_⟩
  · have htext : "a,,-,b".toList ++ [','] = x.text ++ [','] := hx
    exact (List.append_cancel_right htext).symm
  · cases hnode
    exact Except.ok.inj hmake

end Fleet.Peg
