import Fleet.Proofs.Document.Lines
/-!
Declarations, load balancers, pools, boxes and defaults are read back from any layout of them that
is not followed by a line like a pair.
-/

namespace Fleet.Document
open Fleet.Peg Fleet.Text Layout

variable {cs rest t w : List Char}

/-! ## Lines of a block -/

theorem reads_vmSpec {v : VmSpec} (hv : v.Representable) (ht : vmSpec v t) :
    Reads grammar (.rule .vmSpec) (t ++ rest) (.matched rest [.node (.vmSpec v)] []) := by
  obtain ⟨hname, hcount, himage⟩ := hv
  obtain ⟨a, _, rfl, ha, _, _, rfl, rfl, n, _, rfl, hn, k, _, rfl, hk, _, _, rfl, rfl, b, _, rfl,
    hb, rfl⟩ := ht
  simp only [List.append_assoc, List.nil_append]
  have hkind : Takes grammar (.choice [.literal " instances ", .literal " instance "])
      (k ++ ("with ".toList ++ (b ++ rest))) ("with ".toList ++ (b ++ rest)) [] := by
    rcases hk with rfl | rfl
    · exact ⟨_, .choice_taken (.literal " instances " _) (by simp), rfl⟩
    · refine ⟨_, .choice_next (.literal_failed ?_)
        (.choice_taken (.literal " instance " _) (by simp)), rfl⟩
      intro h
      obtain ⟨more, hm⟩ := h
      simp at hm
  have hdigit : Ahead (·.isDigit ≠ true) (k ++ ("with ".toList ++ (b ++ rest))) := by
    rcases hk with rfl | rfl <;> exact Ahead.cons.2 (by decide)
  refine TakesSeq.node rfl rfl (.capture (.of_node (reads_quoted ha hname))
    (.next (.literal ", " _) (.commit (.capture (.of_node (reads_integer hcount hn hdigit))
      (.next hkind (.commit (.next (.literal "with " _)
        (.capture (.of_node (reads_quoted hb himage)) .nil)))))))) fun bs hb => ?_
  exact Action.vmSpec_eq (by simp [hb.nodes]) (by simp [hb.nodes]) (by simp [hb.nodes])

theorem ahead_word {text : String} (h : text.toList.head?.any Char.isAlpha = true) :
    Ahead (·.isAlpha = true) (text.toList ++ cs) := by
  intro c hc
  cases ht : text.toList with
  | nil => simp [ht] at h
  | cons d w =>
    obtain rfl : d = c := by simpa [ht] using hc
    simpa [ht] using h

theorem takes_flavor {text : String} (hq : IsQuotable text) (ht : flavor text t) :
    Takes grammar (.rule .flavor) (t ++ rest) rest [.quoted text] := by
  obtain ⟨w, _, rfl, hw, _, _, rfl, rfl, q, _, rfl, ht, rfl⟩ := ht
  simp only [List.append_assoc, List.nil_append]
  exact .transparent rfl (.seq (.next (takes_indent hw (ahead_word rfl))
    (.next (.literal "vm-flavor: " _) (.commit (.next (.of_node (reads_quoted ht hq)) .nil)))))

theorem takes_steps {s : Sequence} (hs : s.Representable) (ht : lines (steps s) t)
    (hr : Ends rest) : Takes grammar (.rule .steps) (t ++ rest) rest [.pairs s] := by
  obtain ⟨_, n, p, rfl, ⟨w, _, rfl, hw, rfl⟩, hn, hp⟩ := lines_cons (by simp [pairs, hs.1]) ht
  simp only [List.append_assoc]
  exact .transparent rfl (.seq (.next (takes_indent hw (ahead_word rfl))
    (.next (.literal "bootstrap-sequence:" _) (.commit (.next (takes_newline_pairs hs hn hp)
      (.next (.of_node (reads_pairs hs hp hr)) .nil))))))

/-! ## Blocks of pairs -/

theorem reads_declaration {d : Declaration} (hd : d.Representable) (ht : declaration d t)
    (hr : Ends rest) :
    Reads grammar (.rule .declaration) (t ++ rest) (.matched rest [.node (.declaration d)] []) := by
  obtain ⟨hname, hs⟩ := hd
  obtain ⟨_, n, p, rfl, ⟨_, _, rfl, rfl, q, _, rfl, hq, rfl⟩, hn, hp⟩ :=
    lines_cons (by simp [pairs, hs.1]) ht
  simp only [List.append_assoc, List.nil_append]
  refine TakesSeq.node rfl rfl (.next (.literal "bootstrap-sequence: " _)
    (.commit (.capture (.of_node (reads_quoted hq hname)) (.next (takes_newline_pairs hs hn hp)
      (.capture (.of_node (reads_pairs hs hp hr)) .nil))))) fun bs hb => ?_
  exact Action.declaration_eq (by simp [hb.nodes]) (by simp [hb.nodes])

theorem reads_defaults {s : Sequence} (hs : s.Representable) (ht : defaults s t)
    (hr : Ends rest) :
    Reads grammar (.rule .defaults) (t ++ rest) (.matched rest [.node (.defaults s)] []) := by
  obtain ⟨_, n, p, rfl, rfl, hn, hp⟩ := lines_cons (by simp [pairs, hs.1]) ht
  simp only [List.append_assoc]
  refine TakesSeq.node rfl rfl (.next (.literal "defaults:" _) (.commit
    (.next (takes_newline_pairs hs hn hp) (.capture (.of_node (reads_pairs hs hp hr)) .nil))))
    fun bs hb => ?_
  exact Action.defaults_eq (by simp [hb.nodes])

/-! ## Services and ports -/

theorem reads_service {s : Service} (hs : s.Representable) (ht : lines (service s) t)
    (hr : Ahead (·.isDigit ≠ true) rest) :
    Reads grammar (.rule .service) (t ++ rest) (.matched rest [.node (.service s)] []) := by
  obtain ⟨hport, hendpoint, hhealth⟩ := hs
  obtain ⟨_, n₁, _, rfl, ⟨w₁, _, rfl, hw₁, rfl⟩, hn₁, ht⟩ := lines_cons (by simp) ht
  obtain ⟨_, n₂, _, rfl, ⟨w₂, _, rfl, hw₂, _, _, rfl, rfl, p, _, rfl, hp, rfl⟩, hn₂, ht⟩ :=
    lines_cons (by simp) ht
  obtain ⟨_, n₃, _, rfl, ⟨w₃, _, rfl, hw₃, _, _, rfl, rfl, e, _, rfl, he, rfl⟩, hn₃, ht⟩ :=
    lines_cons (by simp) ht
  obtain ⟨w₄, _, rfl, hw₄, _, _, rfl, rfl, h, _, rfl, hh, rfl⟩ := ht
  simp only [List.append_assoc, List.nil_append]
  have hp more := reads_integer hport hp (atLineEnd_of_newline hn₂ more).not_digit
  refine TakesSeq.node rfl rfl (.next (takes_indent hw₁ (ahead_word rfl))
    (.next (.literal "service:" _) (.commit (.next (takes_newline_before hn₁ hw₂ (ahead_word rfl))
      (.next (takes_indent hw₂ (ahead_word rfl)) (.next (.literal "port: " _)
        (.capture (.of_node (hp _)) (.next (takes_newline_before hn₂ hw₃ (ahead_word rfl))
          (.next (takes_indent hw₃ (ahead_word rfl)) (.next (.literal "healthcheck-endpoint: " _)
            (.capture (.of_node (reads_quoted he hendpoint))
              (.next (takes_newline_before hn₃ hw₄ (ahead_word rfl))
                (.next (takes_indent hw₄ (ahead_word rfl)) (.next (.literal "healthcheck-port: " _)
                  (.capture (.of_node (reads_integer hhealth hh hr)) .nil)))))))))))))))
    fun bs hb => ?_
  exact Action.service_eq (by simp [hb.nodes]) (by simp [hb.nodes]) (by simp [hb.nodes])

/-- A rule for a line that begins with a word fails where the word does not come next. -/
theorem indented_failed {X : Symbol} {text : String} {es : List (Expr Symbol)}
    (hbody : (grammar.rule X).body = .seq (Form.blanks :: .literal text :: es)) (hw : blanks w)
    (hcs : Ahead (¬ isBlank ·) cs) (h : Reads grammar (.literal text) cs .failed) :
    Reads grammar (.rule X) (w ++ cs) .failed := by
  obtain ⟨items, hi, -⟩ := takes_blanks hw hcs
  refine Reads.rule_failed_iff.2 ?_
  rw [hbody]
  exact .seq_failed_second hi h nofun

theorem service_failed (hw : blanks w) (hcs : Ahead (·.isAlpha = true) cs)
    (hs : Ahead (· ≠ 's') cs) : Reads grammar (.rule .service) (w ++ cs) .failed :=
  indented_failed rfl hw (hcs.imp fun _ => not_isBlank_of_isAlpha)
    (literal_failed_of_ahead 's' rfl hs)

theorem reads_each_service {ss : List Service} (hs : ∀ s ∈ ss, s.Representable) :
    ReadsEach grammar .service Form.newline (fun s => lines (service s)) .service newline
      (Ahead (·.isDigit ≠ true)) ss where
  reads s hm t rest ht hr := reads_service (hs s hm) ht hr
  separates := by
    intro s hm n t rest hn ht
    obtain ⟨_, n₁, _, rfl, ⟨w, _, rfl, hw, rfl⟩, -, -⟩ := lines_cons (by simp) ht
    simp only [List.append_assoc]
    exact takes_newline_before hn hw (ahead_word rfl)
  ne_nil s := newline_ne_nil
  follow s rest hs := (atLineEnd_of_newline hs rest).not_digit

theorem reads_each_integer {ns : List UInt64} (hn : ∀ n ∈ ns, n ≠ 0) :
    ReadsEach grammar .integer (.literal ", ") integer .integer (Language.word ", ")
      (Ahead (·.isDigit ≠ true)) ns where
  reads n hm t rest ht hr := reads_integer (hn n hm) ht hr
  separates := by
    intro n _ s t rest h _
    subst h
    exact .literal ", " _
  ne_nil := by simp
  follow := by
    intro s rest h
    subst h
    exact Ahead.cons.2 (by decide)

theorem takes_ports {ns : List UInt64} (hne : ns ≠ []) (hn : ∀ n ∈ ns, n ≠ 0)
    (ht : indented (ports ns) t) (hr : AfterValues rest) :
    Takes grammar (.rule .ports) (t ++ rest) rest [.integers ns] := by
  obtain ⟨w, _, rfl, hw, _, _, rfl, rfl, i, _, rfl, hi, rfl⟩ := ht
  simp only [List.append_assoc, List.nil_append]
  have hlist : Reads grammar (.rule .integerList) (i ++ rest)
      (.matched rest [.node (.integers ns)] []) :=
    (reads_each_integer hn).list rfl (listNode_map (f := Node.integer) (fun _ => rfl) _ _ _) hne
      (hr.imp fun _ hc => hc.1) (hr.stops _) hi
  exact .transparent rfl (.seq (.next (takes_indent hw (ahead_word rfl))
    (.next (.literal "ports: " _) (.commit (.next (.of_node hlist) .nil)))))

theorem lines_flatMap_service {ss : List Service} (ht : lines (ss.flatMap service) t) :
    Language.joined newline (ss.map fun s => lines (service s)) t :=
  Language.joined_flatMap newline service_ne_nil ss ▸ ht

/-- The listeners of a pool end before the line that opens its steps. -/
theorem takes_listeners {l : Listeners} {n : List Char} (hl : l.Representable)
    (ht : lines (listeners l) t) (hn : newline n) (hw : blanks w) :
    Takes grammar (.choice [.rule .serviceList, .rule .ports])
      (t ++ (n ++ (w ++ ("bootstrap-sequence:".toList ++ rest))))
      (n ++ (w ++ ("bootstrap-sequence:".toList ++ rest))) [.ofListeners l] := by
  have hline := atLineEnd_of_newline hn (w ++ ("bootstrap-sequence:".toList ++ rest))
  cases l with
  | http ss =>
    have hfail : Reads grammar (.rule .service)
        (w ++ ("bootstrap-sequence:".toList ++ rest)) .failed :=
      service_failed hw (ahead_word rfl) (Ahead.cons.2 (by decide))
    have hstop := stops_of_element (takes_newline_before hn hw (ahead_word rfl)) hfail
    have hlist : Reads grammar (.rule .serviceList) _ (.matched _ [.node (.services ss)] []) :=
      (reads_each_service hl.2).list rfl (listNode_map (f := Node.service) (fun _ => rfl) _ _ _)
        hl.1 hline.not_digit hstop (lines_flatMap_service ht)
    exact ⟨_, .choice_taken hlist (by simp), rfl⟩
  | tcp ns =>
    obtain ⟨items, hi, hnodes⟩ := takes_ports hl.1 hl.2 ht hline.afterValues
    obtain ⟨v, _, rfl, hv, _, _, rfl, rfl, i, _, rfl, -, rfl⟩ := ht
    refine ⟨items, .choice_next ?_ (.choice_taken hi (by simp)), hnodes⟩
    simp only [List.append_assoc, List.nil_append]
    have hfail : Reads grammar (.rule .service)
        (v ++ ("ports: ".toList ++ (i ++ (n ++ (w ++ ("bootstrap-sequence:".toList ++ rest))))))
        .failed :=
      service_failed hv (ahead_word rfl) (Ahead.cons.2 (by decide))
    exact .acting_unmatched rfl (.seq_failed (.capture_unmatched hfail (.inl rfl))) (.inl rfl)

/-! ## Blocks -/

/-- The first two lines of a block, before its own lines and its steps. -/
theorem takes_blockLines {c : Bool} {ls : List (Expr Symbol)} {b : Block}
    {v n₁ f n₂ mid : List Char} {nodes : List Node} {bound : List (String × List Node)}
    (hb : b.Representable) (hv : vmSpec b.spec v) (hn₁ : newline n₁) (hf : flavor b.flavor f)
    (hn₂ : Takes grammar Form.newline (n₂ ++ mid) mid [])
    (hmid : TakesSeq grammar true (ls ++ [Expr.capture "bootstrap_sequence" (.rule Symbol.steps)])
      mid rest nodes bound) :
    TakesSeq grammar c (Form.blockLines ls) (v ++ (n₁ ++ (f ++ (n₂ ++ mid)))) rest
      (.vmSpec b.spec :: .quoted b.flavor :: nodes)
      (("vm_spec", [.vmSpec b.spec]) :: ("flavor", [.quoted b.flavor]) :: bound) := by
  obtain ⟨hspec, hflavor, -⟩ := hb
  have hfirst : Takes grammar Form.newline (n₁ ++ (f ++ (n₂ ++ mid))) (f ++ (n₂ ++ mid)) [] := by
    obtain ⟨w, _, rfl, hw, _, q, rfl, rfl, -⟩ := id hf
    simp only [List.append_assoc]
    exact takes_newline_before hn₁ hw (ahead_word rfl)
  exact .commit (.capture (.of_node (reads_vmSpec hspec hv)) (.next hfirst
    (.capture (takes_flavor hflavor hf) (.next hn₂ hmid))))

theorem block_parts {header : String} {own : List Language} {b : Block}
    (ht : block header own b t) :
    ∃ v n₁ f n₂ m, t = header.toList ++ (v ++ (n₁ ++ (f ++ (n₂ ++ m)))) ∧ vmSpec b.spec v ∧
      newline n₁ ∧ flavor b.flavor f ∧ newline n₂ ∧ lines (own ++ steps b.sequence) m := by
  obtain ⟨_, n₁, _, rfl, ⟨_, _, rfl, rfl, v, _, rfl, hv, rfl⟩, hn₁, ht⟩ :=
    lines_cons (by simp) ht
  obtain ⟨f, n₂, m, rfl, hf, hn₂, hm⟩ := lines_cons (by simp [steps]) ht
  exact ⟨v, n₁, f, n₂, m, by simp, hv, hn₁, hf, hn₂, hm⟩

theorem takes_newline_steps {s : Sequence} {n p : List Char} (hs : s.Representable)
    (hn : newline n) (hp : lines (steps s) p) :
    Takes grammar Form.newline (n ++ (p ++ rest)) (p ++ rest) [] := by
  obtain ⟨_, _, _, rfl, ⟨w, _, rfl, hw, rfl⟩, -, -⟩ := lines_cons (by simp [pairs, hs.1]) hp
  simp only [List.append_assoc]
  exact takes_newline_before hn hw (ahead_word rfl)

/-- A block without lines of its own. -/
theorem takes_plainBlock {c : Bool} {header : String} {b : Block} (hb : b.Representable)
    (ht : block header [] b t) (hr : Ends rest) :
    TakesSeq grammar c (.literal header :: Form.blockLines []) (t ++ rest) rest
      [.vmSpec b.spec, .quoted b.flavor, .pairs b.sequence]
      [("vm_spec", [.vmSpec b.spec]), ("flavor", [.quoted b.flavor]),
        ("bootstrap_sequence", [.pairs b.sequence])] := by
  obtain ⟨v, n₁, f, n₂, m, rfl, hv, hn₁, hf, hn₂, hm⟩ := block_parts ht
  have hs := hb.2.2
  simp only [List.append_assoc]
  exact .next (.literal header _) (takes_blockLines hb hv hn₁ hf (takes_newline_steps hs hn₂ hm)
    (.capture (takes_steps hs hm hr) .nil))

theorem reads_loadBalancer {b : Block} (hb : b.Representable) (ht : loadBalancer b t)
    (hr : Ends rest) :
    Reads grammar (.rule .loadBalancer) (t ++ rest)
      (.matched rest [.node (.loadBalancer b)] []) := by
  refine TakesSeq.node rfl rfl (takes_plainBlock hb ht hr) fun bs hb => ?_
  exact Action.loadBalancer_eq (Action.block_eq (by simp [hb.nodes]) (by simp [hb.nodes])
    (by simp [hb.nodes]))

theorem reads_box {b : Block} (hb : b.Representable) (ht : box b t) (hr : Ends rest) :
    Reads grammar (.rule .box) (t ++ rest) (.matched rest [.node (.box b)] []) := by
  refine TakesSeq.node rfl rfl (takes_plainBlock hb ht hr) fun bs hb => ?_
  exact Action.box_eq (Action.block_eq (by simp [hb.nodes]) (by simp [hb.nodes])
    (by simp [hb.nodes]))

theorem takes_newline_listeners {l : Listeners} {n : List Char} (hl : l.Representable)
    (hn : newline n) (ht : lines (listeners l) t) :
    Takes grammar Form.newline (n ++ (t ++ rest)) (t ++ rest) [] := by
  cases l with
  | http ss =>
    obtain ⟨s, ss, rfl⟩ := List.exists_cons_of_ne_nil hl.1
    obtain ⟨_, _, _, rfl, ⟨w, _, rfl, hw, rfl⟩, -, -⟩ := lines_cons (by simp) ht
    simp only [List.append_assoc]
    exact takes_newline_before hn hw (ahead_word rfl)
  | tcp ns =>
    obtain ⟨w, _, rfl, hw, _, _, rfl, rfl, -⟩ := ht
    simp only [List.append_assoc]
    exact takes_newline_before hn hw (ahead_word rfl)

theorem reads_poolType (protocol : Protocol) :
    Reads grammar (.capture "pool_type" (.choice [.literal "http", .literal "tcp"]))
      (protocol.tag.toList ++ rest)
      (.matched rest [.text protocol.tag] [("pool_type", .text protocol.tag)]) := by
  cases protocol with
  | http => exact .capture (.choice_taken (.literal "http" rest) (by simp))
  | tcp =>
    have hfail : Reads grammar (.literal "http") ('t' :: 'c' :: 'p' :: rest) .failed :=
      literal_failed_of_ahead 'h' rfl (by simp)
    exact .capture (.choice_next hfail (.choice_taken (.literal "tcp" rest) (by simp)))

/-- What a pool captures before its own block has no part in the nodes. -/
theorem pool_captured {p : Pool} {bs : List (String × Item Node)}
    (hb : Binds bs [("vm_spec", [.vmSpec p.spec]), ("flavor", [.quoted p.flavor]),
      ("listeners", [.ofListeners p.listeners]), ("bootstrap_sequence", [.pairs p.sequence])]) :
    Action.pool ⟨("pool_type", .text p.listeners.protocol.tag) :: bs⟩ = .ok [.pool p] := by
  have hkind : (⟨("pool_type", .text p.listeners.protocol.tag) :: bs⟩ : Captures Node).text
      "pool_type" = p.listeners.protocol.tag := by
    have h := Captures.text_append [("pool_type", .text p.listeners.protocol.tag)] bs "pool_type"
    rw [hb.text (by simp), String.append_empty] at h
    exact h
  have hblock : Action.block ⟨("pool_type", .text p.listeners.protocol.tag) :: bs⟩ =
      .ok p.toBlock :=
    Action.block_eq (by simp [hb.nodes]) (by simp [hb.nodes]) (by simp [hb.nodes])
  have hlisteners : (⟨("pool_type", .text p.listeners.protocol.tag) :: bs⟩ : Captures Node).nodes
      "listeners" = [.ofListeners p.listeners] := by
    simp [hb.nodes]
  rw [Action.pool_eq hblock hkind hlisteners, if_pos rfl]

theorem reads_pool {p : Pool} (hp : p.Representable) (ht : pool p t) (hr : Ends rest) :
    Reads grammar (.rule .pool) (t ++ rest) (.matched rest [.node (.pool p)] []) := by
  obtain ⟨hb, hl⟩ := hp
  have hs := hb.2.2
  obtain ⟨v, n₁, f, n₂, _, rfl, hv, hn₁, hf, hn₂, hm⟩ := block_parts ht
  rw [lines, Language.joined_append _ (listeners_ne_nil hl) (by simp [steps])] at hm
  obtain ⟨a, _, rfl, ha, n₃, m, rfl, hn₃, hm⟩ := hm
  have hsteps := takes_steps hs hm hr
  have hnext : Takes grammar Form.newline (n₃ ++ (m ++ rest)) (m ++ rest) [] :=
    takes_newline_steps hs hn₃ hm
  have hlisteners : Takes grammar (.choice [.rule .serviceList, .rule .ports])
      (a ++ (n₃ ++ (m ++ rest))) (n₃ ++ (m ++ rest)) [.ofListeners p.listeners] := by
    obtain ⟨_, _, _, rfl, ⟨w, _, rfl, hw, rfl⟩, -, -⟩ := lines_cons (by simp [pairs, hs.1]) hm
    simp only [List.append_assoc]
    exact takes_listeners hl ha hn₃ hw
  obtain ⟨items, bs, hseq, -, hbs⟩ : TakesSeq grammar false
      (.literal "-pool: " :: Form.blockLines [.capture "listeners" _, Form.newline]) _ _ _ _ :=
    .next (.literal "-pool: " _) (takes_blockLines hb hv hn₁ hf
      (takes_newline_listeners hl hn₂ ha) (.capture hlisteners (.next hnext
        (.capture hsteps .nil))))
  have haction : (grammar.rule .pool).action = some Action.pool := rfl
  simp only [String.toList_append, List.append_assoc]
  exact .node haction (.seq (.next (reads_poolType _) hseq)) (pool_captured hbs)

end Fleet.Document
