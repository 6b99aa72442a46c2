import Fleet.Proofs.Accepted.Tokens
import Fleet.Proofs.Document.Blocks
/-!
What the rules for lines and blocks accept is a layout of the node that they make, which can be
written.
-/

namespace Fleet.Document
open Fleet.Peg Fleet.Text Layout Language

variable {c : Bool}

/-! ## Lines -/

theorem accepts_value :
    Accepts grammar (.rule .value) (Made Value.Representable Node.ofValue value) := by
  refine .transparent rfl (.choice ?_)
  simp only [List.forall_mem_cons]
  refine ⟨accepts_quoted.imp ?_, accepts_integer.imp ?_, by simp⟩
  · intro t items bs h
    obtain ⟨text, hq, ht, hn, hb⟩ := h
    exact ⟨.quoted text, hq, ht, hn, hb⟩
  · intro t items bs h
    obtain ⟨n, hn, ht, hitems, hb⟩ := h
    exact ⟨.integer n, hn, ht, hitems, hb⟩

theorem accepts_values :
    Accepts grammar (.rule .valueList)
      (Made (fun vs => vs ≠ [] ∧ ∀ v ∈ vs, v.Representable) Node.values values) :=
  accepts_value.list rfl (Accepts.literal ", ").skip (listNode_map Node.value?_ofValue _ _)

theorem makes_pair :
    Accepts grammar Form.pair
      (Makes Action.pair Pair.Representable Node.pair fun p => indented (pair p)) := by
  refine .makes (.skip accepts_blanks.skip (.capture accepts_key
    (.skip (Accepts.literal ": ").skip (.commit (.capture accepts_values .nil))))) ?_
  intro _ _ _ h
  obtain ⟨w, _, rfl, hw, key, hkey, k, _, rfl, hk, i, _, _, hi, -, rfl, h⟩ := h
  obtain ⟨_, _, rfl, rfl, vs, hvs, v, _, rfl, hv, j, _, _, hj, -, rfl, rfl, -, rfl⟩ := h
  exact ⟨⟨key, vs⟩, ⟨hkey, hvs⟩, append_intro hw (append_intro hk (append_intro rfl
    (append_intro hv rfl))), Action.pair_eq (by simp [hi]) (by simp [hj])⟩

theorem accepts_pair :
    Accepts grammar (.rule .pair)
      (Made Pair.Representable Node.pair fun p => indented (pair p)) :=
  .made rfl makes_pair

theorem accepts_pairs :
    Accepts grammar (.rule .pairList)
      (Made Sequence.Representable Node.pairs fun s => lines (pairs s)) :=
  accepts_pair.list rfl accepts_newline.skip (listNode_map (f := Node.pair) (fun _ => rfl) _ _)

theorem makes_vmSpec :
    Accepts grammar Form.vmSpec
      (Makes Action.vmSpec VmSpec.Representable Node.vmSpec vmSpec) := by
  have hkind : Accepts grammar (.choice [.literal " instances ", .literal " instance "])
      (Skipped (either (word " instances ") (word " instance "))) := by
    refine .choice ?_
    simp only [List.forall_mem_cons]
    refine ⟨(Accepts.literal _).skip.imp ?_, (Accepts.literal _).skip.imp ?_, by simp⟩
    · exact fun _ _ _ h => ⟨.inl h.1, h.2⟩
    · exact fun _ _ _ h => ⟨.inr h.1, h.2⟩
  refine .makes (.capture accepts_quoted (.skip (Accepts.literal ", ").skip (.commit
    (.capture accepts_integer (.skip hkind (.commit (.skip (Accepts.literal "with ").skip
      (.capture accepts_quoted .nil)))))))) ?_
  intro _ _ _ hp
  obtain ⟨name, hname, a, _, rfl, ha, i, _, _, hi, -, rfl, _, _, rfl, rfl, hp⟩ := hp
  obtain ⟨n, hn, b, _, rfl, hb, j, _, _, hj, -, rfl, k, _, rfl, hk, _, _, rfl, rfl, hp⟩ := hp
  obtain ⟨image, himage, d, _, rfl, hd, l, _, _, hl, -, rfl, rfl, -, rfl⟩ := hp
  exact ⟨⟨name, n, image⟩, ⟨hname, hn, himage⟩, append_intro ha (append_intro rfl
    (append_intro hb (append_intro hk (append_intro rfl (append_intro hd rfl))))),
    Action.vmSpec_eq (by simp [hi]) (by simp [hj]) (by simp [hl])⟩

theorem accepts_vmSpec :
    Accepts grammar (.rule .vmSpec) (Made VmSpec.Representable Node.vmSpec vmSpec) :=
  .made rfl makes_vmSpec

theorem accepts_flavor :
    Accepts grammar (.rule .flavor) (Made IsQuotable Node.quoted flavor) := by
  refine .transparent rfl ((Accepts.seq (.skip accepts_blanks.skip
    (.skip (Accepts.literal "vm-flavor: ").skip (.commit (.next accepts_quoted .nil))))).imp ?_)
  intro _ items _ h
  obtain ⟨w, _, rfl, hw, _, _, rfl, rfl, q, _, i, _, _, _, rfl, hn, rfl, h⟩ := h
  obtain ⟨⟨text, hquotable, hq, hi, rfl⟩, rfl, rfl, rfl⟩ := h
  exact ⟨text, hquotable, append_intro hw (append_intro rfl (append_intro hq rfl)),
    by rw [hn, hi]; rfl, rfl⟩

theorem lines_intro {p : Language} {ps : List Language} {a n b : List Char} (hne : ps ≠ [])
    (ha : p a) (hn : newline n) (hb : lines ps b) : lines (p :: ps) (a ++ (n ++ b)) := by
  rw [lines, joined_cons_of_ne_nil _ _ hne]
  exact append_intro ha (append_intro hn hb)

theorem accepts_steps :
    Accepts grammar (.rule .steps)
      (Made Sequence.Representable Node.pairs fun s => lines (steps s)) := by
  refine .transparent rfl ((Accepts.seq (.skip accepts_blanks.skip
    (.skip (Accepts.literal "bootstrap-sequence:").skip (.commit (.skip accepts_newline.skip
      (.next accepts_pairs .nil)))))).imp ?_)
  intro _ items _ h
  obtain ⟨w, _, rfl, hw, _, _, rfl, rfl, n, _, rfl, hnew, p, _, i, _, _, _, rfl, hn, rfl, h⟩ := h
  obtain ⟨⟨s, hs, hp, hi, rfl⟩, rfl, rfl, rfl⟩ := h
  refine ⟨s, hs, ?_, by rw [hn, hi]; rfl, rfl⟩
  have hlines := lines_intro (p := indented (word "bootstrap-sequence:")) (by simp [pairs, hs.1])
    (append_intro hw rfl) hnew hp
  simpa [steps] using hlines

/-! ## Listeners -/

/-- A line that is a word and a captured part. -/
theorem accepts_line {α : Type} {es : List (Expr Symbol)} {e : Expr Symbol} {name : String}
    {good : α → Prop} {node : α → Node} {lang : α → Language}
    {Q : List Char → List Node → List (String × Item Node) → Prop} (text : String)
    (h : Accepts grammar e (Made good node lang)) (hs : AcceptsSeq grammar c es Q) :
    AcceptsSeq grammar c (Form.blanks :: .literal text :: .capture name e :: es)
      fun t nodes bs => ∃ a, good a ∧
        ∃ u v, t = u ++ v ∧ indented (concat [word text, lang a]) u ∧
          ∃ (i : List (Item Node)) (more : List Node) (b : _), i.filterMap Item.node? = [node a] ∧
            nodes = node a :: more ∧ bs = i.map (name, ·) ++ b ∧ Q v more b := by
  refine (AcceptsSeq.skip accepts_blanks.skip
    (.skip (Accepts.literal text).skip (.capture h hs))).imp ?_
  intro _ nodes bs hp
  obtain ⟨w, _, rfl, hw, _, _, rfl, rfl, a, ha, u, v, rfl, hu, hcaptured⟩ := hp
  refine ⟨a, ha, w ++ (text.toList ++ (u ++ [])), v, by simp, ?_, hcaptured⟩
  exact append_intro hw (append_intro rfl (append_intro hu rfl))

theorem makes_service :
    Accepts grammar Form.service
      (Makes Action.service Service.Representable Node.service fun s => lines (service s)) := by
  have hnewline := accepts_newline.skip
  refine .makes (.skip accepts_blanks.skip (.skip (Accepts.literal "service:").skip
    (.commit (.skip hnewline (accepts_line "port: " accepts_integer (.skip hnewline
      (accepts_line "healthcheck-endpoint: " accepts_quoted (.skip hnewline
        (accepts_line "healthcheck-port: " accepts_integer .nil))))))))) ?_
  intro _ _ _ hx
  obtain ⟨w, _, rfl, hw, _, _, rfl, rfl, n₁, _, rfl, hn₁, hx⟩ := hx
  obtain ⟨port, hport, p, _, rfl, hp, i, _, _, hi, -, rfl, n₂, _, rfl, hn₂, hx⟩ := hx
  obtain ⟨endpoint, hendpoint, e, _, rfl, he, j, _, _, hj, -, rfl, n₃, _, rfl, hn₃, hx⟩ := hx
  obtain ⟨health, hhealth, h, _, rfl, hh, k, _, _, hk, -, rfl, rfl, -, rfl⟩ := hx
  refine ⟨⟨port, endpoint, health⟩, ⟨hport, hendpoint, hhealth⟩, ?_,
    Action.service_eq (by simp [hi]) (by simp [hj]) (by simp [hk])⟩
  rw [List.append_nil, ← List.append_assoc]
  exact lines_intro (by simp) (append_intro hw rfl) hn₁ (lines_intro (by simp) hp hn₂
    (lines_intro (by simp) he hn₃ hh))

theorem accepts_service :
    Accepts grammar (.rule .service)
      (Made Service.Representable Node.service fun s => lines (service s)) :=
  .made rfl makes_service

theorem accepts_integers :
    Accepts grammar (.rule .integerList)
      (Made (fun ns => ns ≠ [] ∧ ∀ n ∈ ns, n ≠ 0) Node.integers fun ns =>
        joined (word ", ") (ns.map integer)) :=
  accepts_integer.list rfl (Accepts.literal ", ").skip
    (listNode_map (f := Node.integer) (fun _ => rfl) _ _)

theorem accepts_ports :
    Accepts grammar (.rule .ports)
      (Made (fun ns => ns ≠ [] ∧ ∀ n ∈ ns, n ≠ 0) Node.integers fun ns => indented (ports ns)) := by
  refine .transparent rfl ((Accepts.seq (.skip accepts_blanks.skip
    (.skip (Accepts.literal "ports: ").skip (.commit (.next accepts_integers .nil))))).imp ?_)
  intro _ items _ h
  obtain ⟨w, _, rfl, hw, _, _, rfl, rfl, p, _, i, _, _, _, rfl, hn, rfl, h⟩ := h
  obtain ⟨⟨ns, hns, hp, hi, rfl⟩, rfl, rfl, rfl⟩ := h
  exact ⟨ns, hns, append_intro hw (append_intro rfl (append_intro hp rfl)),
    by rw [hn, hi]; rfl, rfl⟩

theorem accepts_services :
    Accepts grammar (.rule .serviceList)
      (Made (fun ss => ss ≠ [] ∧ ∀ s ∈ ss, s.Representable) Node.services fun ss =>
        joined newline (ss.map fun s => lines (service s))) :=
  accepts_service.list rfl accepts_newline.skip
    (listNode_map (f := Node.service) (fun _ => rfl) _ _)

theorem accepts_listeners :
    Accepts grammar (.choice [.rule .serviceList, .rule .ports])
      (Made Listeners.Representable Node.ofListeners fun l => lines (listeners l)) := by
  refine .choice ?_
  simp only [List.forall_mem_cons]
  refine ⟨accepts_services.imp ?_, accepts_ports.imp ?_, by simp⟩
  · intro t items bs h
    obtain ⟨ss, hss, ht, hn, hb⟩ := h
    refine ⟨.http ss, hss, ?_, hn, hb⟩
    show joined newline (ss.flatMap service) t
    rw [joined_flatMap newline service_ne_nil]
    exact ht
  · intro t items bs h
    obtain ⟨ns, hns, ht, hn, hb⟩ := h
    exact ⟨.tcp ns, hns, ht, hn, hb⟩

/-! ## Blocks -/

theorem makes_declaration :
    Accepts grammar Form.declaration
      (Makes Action.declaration Declaration.Representable Node.declaration declaration) := by
  refine .makes (.skip (Accepts.literal "bootstrap-sequence: ").skip (.commit
    (.capture accepts_quoted (.skip accepts_newline.skip (.capture accepts_pairs .nil))))) ?_
  intro _ _ _ h
  obtain ⟨_, _, rfl, rfl, name, hname, q, _, rfl, hq, i, _, _, hi, -, rfl, h⟩ := h
  obtain ⟨n, _, rfl, hn, s, hs, p, _, rfl, hp, j, _, _, hj, -, rfl, rfl, -, rfl⟩ := h
  refine ⟨⟨name, s⟩, ⟨hname, hs⟩, ?_, Action.declaration_eq (by simp [hi]) (by simp [hj])⟩
  have hlines := lines_intro (p := concat [word "bootstrap-sequence: ", quoted name])
    (by simp [pairs, hs.1]) (append_intro rfl (append_intro hq rfl)) hn hp
  simpa only [declaration, List.append_assoc, List.append_nil] using hlines

theorem accepts_declaration :
    Accepts grammar (.rule .declaration)
      (Made Declaration.Representable Node.declaration declaration) :=
  .made rfl makes_declaration

theorem makes_defaults :
    Accepts grammar Form.defaults
      (Makes Action.defaults Sequence.Representable Node.defaults defaults) := by
  refine .makes (.skip (Accepts.literal "defaults:").skip (.commit
    (.skip accepts_newline.skip (.capture accepts_pairs .nil)))) ?_
  intro _ _ _ h
  obtain ⟨_, _, rfl, rfl, n, _, rfl, hn, s, hs, p, _, rfl, hp, i, _, _, hi, -, rfl, h⟩ := h
  obtain ⟨rfl, -, rfl⟩ := h
  refine ⟨s, hs, ?_, Action.defaults_eq (by simp [hi])⟩
  have hlines := lines_intro (p := word "defaults:") (by simp [pairs, hs.1]) rfl hn hp
  simpa only [defaults, List.append_nil] using hlines

theorem accepts_defaults :
    Accepts grammar (.rule .defaults) (Made Sequence.Representable Node.defaults defaults) :=
  .made rfl makes_defaults

/-- The first two lines of a block, and what its own lines and its steps make of the rest. -/
theorem accepts_blockLines {ls : List (Expr Symbol)}
    {Q : List Char → List Node → List (String × Item Node) → Prop}
    (hs : AcceptsSeq grammar true
      (ls ++ [Expr.capture "bootstrap_sequence" (.rule Symbol.steps)]) Q) :
    AcceptsSeq grammar c (Form.blockLines ls) fun t _ bs =>
      ∃ (spec : VmSpec) (text : String), spec.Representable ∧ IsQuotable text ∧
        ∃ v n₁ f n₂ m, t = v ++ (n₁ ++ (f ++ (n₂ ++ m))) ∧ vmSpec spec v ∧ newline n₁ ∧
          flavor text f ∧ newline n₂ ∧
          ∃ (i j : List (Item Node)) (more : List Node) (b : _),
            i.filterMap Item.node? = [.vmSpec spec] ∧ j.filterMap Item.node? = [.quoted text] ∧
            bs = i.map ("vm_spec", ·) ++ (j.map ("flavor", ·) ++ b) ∧ Q m more b := by
  have h : AcceptsSeq grammar c (Form.blockLines ls) _ :=
    .commit (.capture accepts_vmSpec (.skip accepts_newline.skip (.capture accepts_flavor
      (.skip accepts_newline.skip hs))))
  refine h.imp ?_
  intro _ nodes _ hp
  obtain ⟨spec, hspec, v, _, rfl, hv, i, _, _, hi, -, rfl, n₁, _, rfl, hn₁, hp⟩ := hp
  obtain ⟨text, htext, f, _, rfl, hf, j, _, b, hj, -, rfl, n₂, m, rfl, hn₂, hq⟩ := hp
  exact ⟨spec, text, hspec, htext, v, n₁, f, n₂, m, rfl, hv, hn₁, hf, hn₂, i, j, _, b, hi, hj,
    rfl, hq⟩

theorem block_intro {header : String} {own : List Language} {b : Block}
    {v n₁ f n₂ m : List Char} (hv : vmSpec b.spec v) (hn₁ : newline n₁) (hf : flavor b.flavor f)
    (hn₂ : newline n₂) (hm : lines (own ++ steps b.sequence) m) :
    block header own b (header.toList ++ (v ++ (n₁ ++ (f ++ (n₂ ++ m))))) := by
  have hfirst : concat [word header, vmSpec b.spec] (header.toList ++ (v ++ [])) :=
    append_intro rfl (append_intro hv rfl)
  have hlines := lines_intro (by simp) hfirst hn₁ (lines_intro (by simp [steps]) hf hn₂ hm)
  simpa only [block, List.append_assoc, List.append_nil, List.nil_append] using hlines

/-- A block without lines of its own. -/
theorem accepts_plainBlock (header : String) :
    AcceptsSeq grammar c (.literal header :: Form.blockLines []) fun t _ bs =>
      ∃ b : Block, b.Representable ∧ block header [] b t ∧ Action.block ⟨bs⟩ = .ok b := by
  have h : AcceptsSeq grammar c (.literal header :: Form.blockLines []) _ :=
    .skip (Accepts.literal header).skip (accepts_blockLines (.capture accepts_steps .nil))
  refine h.imp ?_
  intro _ nodes _ hp
  obtain ⟨_, _, rfl, rfl, spec, text, hspec, htext, v, n₁, f, n₂, _, rfl, hp⟩ := hp
  obtain ⟨hv, hn₁, hf, hn₂, i, j, _, _, hi, hj, rfl, hp⟩ := hp
  obtain ⟨s, hs, m, _, rfl, hm, k, _, _, hk, -, rfl, rfl, -, rfl⟩ := hp
  refine ⟨⟨spec, text, s⟩, ⟨hspec, htext, hs⟩, ?_, ?_⟩
  · rw [List.append_nil]
    exact block_intro hv hn₁ hf hn₂ hm
  · exact Action.block_eq (by simp [hi]) (by simp [hj]) (by simp [hk])

theorem makes_loadBalancer :
    Accepts grammar Form.loadBalancer
      (Makes Action.loadBalancer Block.Representable Node.loadBalancer loadBalancer) := by
  refine .makes (accepts_plainBlock "load-balancer: ") ?_
  intro _ _ _ h
  obtain ⟨b, hb, ht, hblock⟩ := h
  exact ⟨b, hb, ht, Action.loadBalancer_eq hblock⟩

theorem accepts_loadBalancer :
    Accepts grammar (.rule .loadBalancer)
      (Made Block.Representable Node.loadBalancer loadBalancer) :=
  .made rfl makes_loadBalancer

theorem makes_box :
    Accepts grammar Form.box (Makes Action.box Block.Representable Node.box box) := by
  refine .makes (accepts_plainBlock "box: ") ?_
  intro _ _ _ h
  obtain ⟨b, hb, ht, hblock⟩ := h
  exact ⟨b, hb, ht, Action.box_eq hblock⟩

theorem accepts_box : Accepts grammar (.rule .box) (Made Block.Representable Node.box box) :=
  .made rfl makes_box

theorem accepts_protocol :
    Accepts grammar (.choice [.literal "http", .literal "tcp"])
      (Spelled fun t => ∃ protocol : Protocol, t = protocol.tag.toList) := by
  refine .choice ?_
  simp only [List.forall_mem_cons]
  refine ⟨(Accepts.literal _).imp fun _ _ _ h => h.imp ?_,
    (Accepts.literal _).imp fun _ _ _ h => h.imp ?_, by simp⟩
  · exact fun t ht => ⟨.http, ht⟩
  · exact fun t ht => ⟨.tcp, ht⟩

/-- The block of a pool, after the words that open it. -/
theorem accepts_poolBlock :
    AcceptsSeq grammar c (Form.blockLines [.capture "listeners"
        (.choice [.rule .serviceList, .rule .ports]), Form.newline]) fun t _ bs =>
      ∃ p : Pool, p.Representable ∧
        (∀ header, block header (listeners p.listeners) p.toBlock (header.toList ++ t)) ∧
        (⟨bs⟩ : Captures Node).nodes "vm_spec" = [.vmSpec p.spec] ∧
        (⟨bs⟩ : Captures Node).nodes "flavor" = [.quoted p.flavor] ∧
        (⟨bs⟩ : Captures Node).nodes "listeners" = [.ofListeners p.listeners] ∧
        (⟨bs⟩ : Captures Node).nodes "bootstrap_sequence" = [.pairs p.sequence] ∧
        (⟨bs⟩ : Captures Node).text "pool_type" = "" := by
  have h : AcceptsSeq grammar c (Form.blockLines [.capture "listeners"
      (.choice [.rule .serviceList, .rule .ports]), Form.newline]) _ :=
    accepts_blockLines (.capture accepts_listeners (.skip accepts_newline.skip
      (.capture accepts_steps .nil)))
  refine h.imp ?_
  intro _ _ _ hp
  obtain ⟨spec, text, hspec, htext, v, n₁, f, n₂, _, rfl, hp⟩ := hp
  obtain ⟨hv, hn₁, hf, hn₂, i, j, _, _, hi, hj, rfl, hp⟩ := hp
  obtain ⟨ls, hls, a, _, rfl, ha, k, _, _, hk, -, rfl, n₃, _, rfl, hn₃, hp⟩ := hp
  obtain ⟨s, hs, m, _, rfl, hm, o, _, _, ho, -, rfl, rfl, -, rfl⟩ := hp
  refine ⟨⟨⟨spec, text, s⟩, ls⟩, ⟨⟨hspec, htext, hs⟩, hls⟩, fun header => ?_, by simp [hi],
    by simp [hj], by simp [hk], by simp [ho], by simp⟩
  have hown : lines (listeners ls ++ steps s) (a ++ (n₃ ++ m)) := by
    rw [lines, joined_append _ (listeners_ne_nil hls) (by simp [steps])]
    exact append_intro ha (append_intro hn₃ hm)
  rw [List.append_nil]
  exact block_intro (b := ⟨spec, text, s⟩) hv hn₁ hf hn₂ hown

/-- The word that opens a pool says what its listeners have to be. -/
theorem accepts_poolBody :
    Accepts grammar Form.pool fun t _ bs => ∃ (p : Pool) (protocol : Protocol), p.Representable ∧
      (p.listeners.protocol = protocol → pool p t) ∧
      Action.pool ⟨bs⟩ = if p.listeners.protocol = protocol then .ok [.pool p]
        else .error (.invalidValue (.wrongListeners protocol p.spec.name)) := by
  refine (Accepts.seq (.next accepts_protocol.capture (.skip (Accepts.literal "-pool: ").skip
    accepts_poolBlock))).imp ?_
  intro _ _ _ h
  obtain ⟨_, _, i, _, _, b, rfl, -, rfl, ⟨_, rfl, ⟨⟨protocol, rfl⟩, hi, rfl⟩, htag⟩, h⟩ := h
  obtain ⟨_, t, rfl, rfl, p, hp, ht, hv, hf, hl, hs, hnone⟩ := h
  have htext : (⟨[] ++ i.map ("pool_type", ·) ++ b⟩ : Captures Node).text "pool_type" =
      protocol.tag := by
    simpa [hnone] using htag
  have hblock : Action.block ⟨[] ++ i.map ("pool_type", ·) ++ b⟩ = .ok p.toBlock :=
    Action.block_eq (by simpa using hv) (by simpa using hf) (by simpa using hs)
  refine ⟨p, protocol, hp, fun heq => ?_, Action.pool_eq hblock htext (by simpa using hl)⟩
  have hpool := ht (p.listeners.protocol.tag ++ "-pool: ")
  rw [heq, String.toList_append, List.append_assoc] at hpool
  rw [pool, heq]
  exact hpool

theorem accepts_pool :
    Accepts grammar (.rule .pool) (Made Pool.Representable Node.pool pool) := by
  refine (Accepts.acting rfl accepts_poolBody).imp ?_
  intro _ _ _ h
  obtain ⟨rfl, _, _, _, ⟨p, protocol, hp, ht, hpool⟩, hact, rfl⟩ := h
  rw [hpool] at hact
  split at hact
  · next heq =>
    cases hact
    exact ⟨p, hp, ht heq, rfl, rfl⟩
  · cases hact

end Fleet.Document
