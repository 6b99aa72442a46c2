import Fleet.Proofs.Document.DeadEnds
/-!
The commits of the grammar reject no document (`run_uncommitted_iff`). Rule by rule, where commits
abort a match, matching without them either has none or leaves a text that begins with a stray
line; and no document goes on before such a line.
-/

namespace Fleet.Document
open Fleet.Peg Fleet.Text Layout Language

variable {cs rest n : List Char} {e : Expr Symbol} {es : List (Expr Symbol)}
  {X Y : Symbol} {Xs Ys : List Symbol} {P : List Char → Prop}

/-! ## Lines that a rule was aborted at -/

/-- A pair that is aborted has a key and no value that could be quoted text. -/
theorem pair_headed (ha : Reads grammar (.rule .pair) cs .aborted)
    (hf : Reads grammar.uncommitted (.rule .pair) cs .failed) :
    Visible cs ∧ ∃ v, Headed v cs ∧ Unmatched grammar.uncommitted (.rule .quoted) v := by
  have hf₀ := Reads.rule_failed_iff.1 hf
  -- Nothing before the commit aborts, so that the key and the colon are there in both matches and
  -- the values are not.
  cases ha.body_aborted grammar_settled hf with
  | seq h₀ =>
    obtain ⟨_, _, _, hblanks, h₁, hf₁⟩ := next_of_plain (e := Form.blanks) rfl h₀ hf₀
    obtain ⟨_, _, _, hkey, h₂, hf₂⟩ := next_of_plain (e := .capture "key" (.rule .key)) rfl h₁ hf₁
    obtain ⟨v, _, _, hcolon, -, hf₃⟩ := next_of_plain (e := .literal ": ") rfl h₂ hf₂
    obtain ⟨w, rfl, ⟨hw, -⟩, -⟩ := accepts_blanks hblanks
    obtain ⟨_, rfl, _, _, key, hk, rfl, -⟩ := accepts_key.capture hkey
    obtain ⟨_, rfl, ⟨rfl, -⟩, -⟩ := Accepts.literal ": " hcolon
    refine ⟨?_, v, ⟨w ++ key.toList, by simp, ?_⟩, ?_⟩
    · obtain ⟨c, u, hcu, hc⟩ := hk.exists_letter
      refine ⟨w, c, u ++ (": ".toList ++ v), by simp [hcu], hw, ?_⟩
      exact ⟨not_isBlank_of_isAlpha hc, not_isBreak_of_isAlpha hc⟩
    · intro h
      rcases List.mem_append.1 h with h | h
      · exact absurd (hw _ h) (by simp [isBlank])
      · exact hk.colon_not_mem h
    · cases hf₃.of_single (e := .capture "value" (.rule Symbol.valueList)) (by simp) (.inl rfl) with
      | capture_unmatched hvalues =>
        have hvalue := Reads.first_failed (g := grammar.uncommitted) rfl hvalues
        cases Reads.rule_failed_iff.1 hvalue with
        | choice_taken _ hr => exact absurd rfl hr
        | choice_next hquoted => exact .of_failed hquoted

/-- A service that does not fail is one by its first line. -/
theorem failed_of_service {text : String} (h : ¬ Reads grammar (.rule .service) cs .failed)
    (hbody : (grammar.rule X).body = .seq (Form.blanks :: .literal text :: es))
    (ht : Clash "service:".toList text.toList = true) :
    Visible cs ∧ Reads grammar (.rule X) cs .failed := by
  obtain ⟨w, u, rfl, hw, hu⟩ := exists_run isBlank cs
  by_cases hp : "service:".toList <+: u
  · obtain ⟨v, rfl⟩ := hp
    refine ⟨⟨w, 's', "ervice:".toList ++ v, rfl, hw, ?_⟩, ?_⟩
    · simp [isBlank, isBreak]
    · exact indented_failed hbody hw hu (.literal_failed (not_prefix_of_clash ht v))
  · exact absurd (indented_failed rfl hw hu (.literal_failed hp)) h

namespace Stray

theorem of_pair (hn : ∀ c ∈ n, isBreak c) (ha : Reads grammar (.rule .pair) cs .aborted)
    (hf : Reads grammar.uncommitted (.rule .pair) cs .failed) :
    Stray (.pair :: blockRules) (n ++ cs) := by
  obtain ⟨hcs, v, hv, hu⟩ := pair_headed ha hf
  refine of_line hn hcs fun X hX => ?_
  rcases List.mem_cons.1 hX with rfl | hX
  · exact ⟨by decide, .of_failed hf⟩
  · exact ⟨List.mem_append_right _ hX, hv.unmatched hu hX⟩

theorem of_service (hn : ∀ c ∈ n, isBreak c) (ha : Reads grammar (.rule .service) cs .aborted)
    (hf : Reads grammar.uncommitted (.rule .service) cs .failed) :
    Stray [.service, .steps] (n ++ cs) := by
  obtain ⟨hcs, hsteps⟩ := failed_of_service (X := .steps) ha.not_failed_of_aborted rfl (by decide)
  refine of_line hn hcs fun X hX => ?_
  simp only [List.mem_cons, List.not_mem_nil, or_false] at hX
  rcases hX with rfl | rfl
  · exact ⟨by decide, .of_failed hf⟩
  · exact ⟨by decide, unmatched_of_failed hsteps⟩

theorem of_block (hX : X ∈ Symbol.defaults :: blockRules) (hn : ∀ c ∈ n, isBreak c)
    (h : ¬ Reads grammar (.rule X) cs .failed)
    (hYs : ∀ Y ∈ Ys, Y ∈ blockRules ∧ (X = Y → Unmatched grammar.uncommitted (.rule Y) cs)) :
    Stray Ys (n ++ cs) := by
  refine of_line hn ?_ fun Y hY => ?_
  · obtain ⟨word, hw, u, rfl⟩ := exists_opening hX h
    obtain ⟨c, v, hcv, hc⟩ := exists_letter hX hw
    exact ⟨[], c, v ++ u, by simp [hcv], by simp [blanks], not_isBlank_of_isAlpha hc,
      not_isBreak_of_isAlpha hc⟩
  · obtain ⟨hblock, hself⟩ := hYs Y hY
    refine ⟨List.mem_append_right _ hblock, ?_⟩
    by_cases hXY : X = Y
    · exact hself hXY
    · exact unmatched_of_other hX hblock hXY h

end Stray

/-! ## Values -/

theorem prunes_next (h : Final grammar e) (hs : PrunesSeq grammar es P) :
    PrunesSeq grammar (e :: es) P := .next grammar_settled h hs

theorem prunes_skip (he : plain e = true) (hs : PrunesSeq grammar es P) :
    PrunesSeq grammar (e :: es) P := prunes_next (final_of_plain he) hs

theorem prunes_last (h : Prunes grammar e P) : PrunesSeq grammar [e] P := .last grammar_settled h

theorem prunes_mono (h : Prunes grammar e (Stray Xs)) (hs : ∀ Y ∈ Ys, Y ∈ Xs) :
    Prunes grammar e (Stray Ys) := h.imp fun _ hx => hx.mono hs

theorem prunes_rule (h : Prunes grammar (grammar.rule X).body P) : Prunes grammar (.rule X) P :=
  .rule grammar_settled h

theorem final_quotedBy {name mark : String}
    (hX : grammar.rule X = .acting name (Form.quotedBy mark) Action.quoted) :
    Final grammar (.rule X) := by
  refine prunes_rule ?_
  rw [hX]
  exact (prunes_skip rfl (.commit (prunes_skip rfl (prunes_skip rfl .nil)))).seq

theorem final_quoted : Final grammar (.rule .quoted) := by
  refine prunes_rule (.orElse grammar_settled (final_quotedBy rfl) (final_quotedBy rfl) ?_)
  intro cs ha
  obtain ⟨u, rfl⟩ := Ahead.exists_cons_of_not (c := '\'') fun h =>
    ha.not_failed_of_aborted (quotedBy_failed rfl rfl h)
  exact unmatched_of_failed (quotedBy_failed (m := '"') rfl rfl (by simp))

theorem final_integer : Final grammar (.rule .integer) := prunes_rule (final_of_plain rfl)

theorem final_value : Final grammar (.rule .value) := by
  refine prunes_rule (.orElse grammar_settled final_quoted final_integer fun cs ha => ?_)
  have hquote : ∃ m u, (m = '\'' ∨ m = '"') ∧ cs = m :: u := by
    by_cases hs : Ahead (· ≠ '\'') cs
    · obtain ⟨u, hu⟩ := Ahead.exists_cons_of_not fun hd =>
        ha.not_failed_of_aborted (quoted_failed hs hd)
      exact ⟨_, u, .inr rfl, hu⟩
    · obtain ⟨u, hu⟩ := Ahead.exists_cons_of_not hs
      exact ⟨_, u, .inl rfl, hu⟩
  obtain ⟨m, u, hm, rfl⟩ := hquote
  refine unmatched_of_failed (Reads.rule_failed_iff.2 (.capture_unmatched (.seq_failed ?_)
    (.inl rfl)))
  rcases hm with rfl | rfl <;> exact .oneOf_failed rfl

/-- After a comma that no element follows there is nothing to go on with. -/
theorem prunes_commaList {element : Symbol} {name : String}
    {make : List Node → Except Fault Node}
    (hX : grammar.rule X = .listOf name element (.literal ", ") make)
    (h : Final grammar (.rule element)) : Prunes grammar (.rule X) (Stray lineRules) := by
  have hlist : Prunes grammar (.rule X) fun cs => ∃ u, cs = ", ".toList ++ u ∧
      Unmatched grammar.uncommitted (.rule element) u := by
    refine .listOf grammar_settled hX (steady_of_plain rfl) (settled_of_plain rfl)
      (h.imp fun _ => False.elim) ?_ ?_
    · intro cs hp rest items bs hr
      obtain ⟨u, rfl, hu⟩ := hp
      obtain ⟨_, hcs, ⟨rfl, -⟩, -⟩ := Accepts.literal ", " hr
      obtain rfl := List.append_cancel_left hcs
      exact hu
    · intro cs mid items bs hm _ hf
      obtain ⟨_, rfl, ⟨rfl, -⟩, -⟩ := Accepts.literal ", " hm
      exact ⟨mid, rfl, .of_failed hf⟩
  refine hlist.imp fun rest hp => ?_
  obtain ⟨u, rfl, -⟩ := hp
  exact .comma _

/-! ## Lines -/

theorem prunes_pair : Prunes grammar (.rule .pair) (Stray lineRules) :=
  prunes_rule (prunes_skip rfl (prunes_skip rfl (prunes_skip rfl (.commit
    (prunes_last (prunes_commaList rfl final_value).capture))))).seq

/-- A list whose elements are separated by line ends is over before the line of an element that is
aborted. -/
theorem prunes_lineList {element : Symbol} {sep : Expr Symbol} {name : String}
    {make : List Node → Except Fault Node} {p : Language}
    (hX : grammar.rule X = .listOf name element sep make) (hsep : plain sep = true)
    (haccepts : Accepts grammar sep (Spelled p)) (hbreaks : ∀ t, p t → ∀ c ∈ t, isBreak c)
    (hmem : element ∈ Xs) (h : Prunes grammar (.rule element) (Stray Xs))
    (hfailed : ∀ n cs, (∀ c ∈ n, isBreak c) → Reads grammar (.rule element) cs .aborted →
      Reads grammar.uncommitted (.rule element) cs .failed → Stray Xs (n ++ cs)) :
    Prunes grammar (.rule X) (Stray Xs) := by
  refine .listOf grammar_settled hX (steady_of_plain hsep) (settled_of_plain hsep) h ?_ ?_
  · intro cs hs
    exact (hs.separator hsep haccepts hbreaks).imp fun _ hr => hr.here hmem
  · intro cs mid items bs hm ha hf
    obtain ⟨n, rfl, ⟨hn, -⟩, -⟩ := haccepts hm
    exact hfailed n mid (hbreaks n hn) ha hf

theorem prunes_pairList : Prunes grammar (.rule .pairList) (Stray (.pair :: blockRules)) := by
  refine prunes_lineList rfl rfl accepts_newline (fun _ => newline_isBreak) (by simp)
    (prunes_mono prunes_pair (by decide)) fun n cs => ?_
  exact .of_pair

/-- Pairs at the end of a block. -/
theorem prunes_lastPairs : Prunes grammar (.rule .pairList) (Stray blockRules) :=
  prunes_mono prunes_pairList fun _ => List.mem_cons_of_mem _

theorem prunes_steps : Prunes grammar (.rule .steps) (Stray blockRules) :=
  prunes_rule (prunes_skip rfl (prunes_skip rfl (.commit (prunes_skip rfl
    (prunes_last prunes_lastPairs))))).seq

theorem final_vmSpec : Final grammar (.rule .vmSpec) :=
  prunes_rule (prunes_next final_quoted.capture (prunes_skip rfl (.commit
    (prunes_next final_integer.capture (prunes_skip rfl (.commit (prunes_skip rfl
      (prunes_last final_quoted.capture)))))))).seq

theorem final_flavor : Final grammar (.rule .flavor) :=
  prunes_rule (prunes_skip rfl (prunes_skip rfl (.commit (prunes_last final_quoted)))).seq

theorem final_service : Final grammar (.rule .service) :=
  prunes_rule (prunes_skip rfl (prunes_skip rfl (.commit (prunes_skip rfl
    (prunes_skip rfl (prunes_skip rfl (prunes_next final_integer.capture (prunes_skip rfl
      (prunes_skip rfl (prunes_skip rfl (prunes_next final_quoted.capture (prunes_skip rfl
        (prunes_skip rfl (prunes_skip rfl (prunes_last final_integer.capture))))))))))))))).seq

/-- Where services are aborted there are no ports to be listened at. -/
theorem prunes_listeners :
    Prunes grammar (.choice [.rule .serviceList, .rule .ports]) (Stray [.service, .steps]) := by
  have hservices : Prunes grammar (.rule .serviceList) (Stray [.service, .steps]) :=
    prunes_lineList rfl rfl accepts_newline (fun _ => newline_isBreak) (by simp)
      (final_service.imp fun _ => False.elim) fun n cs => .of_service
  have hports : Prunes grammar (.rule .ports) (Stray lineRules) :=
    prunes_rule (prunes_skip rfl (prunes_skip rfl (.commit
      (prunes_last (prunes_commaList rfl final_integer))))).seq
  -- Without commits the ports are tried at the line that the first service was aborted at.
  refine .orElse grammar_settled hservices (prunes_mono hports (by decide)) fun cs ha => ?_
  have hservice : ¬ Reads grammar (.rule .service) cs .failed := fun hf =>
    ha.not_failed_of_aborted (.listOf_failed rfl hf)
  exact unmatched_of_failed (failed_of_service hservice rfl (by decide)).2

/-! ## Blocks -/

theorem prunes_declaration : Prunes grammar (.rule .declaration) (Stray blockRules) :=
  prunes_rule (prunes_skip rfl (.commit (prunes_next final_quoted.capture (prunes_skip rfl
    (prunes_last prunes_lastPairs.capture))))).seq

theorem prunes_defaults : Prunes grammar (.rule .defaults) (Stray blockRules) :=
  prunes_rule (prunes_skip rfl (.commit (prunes_skip rfl
    (prunes_last prunes_lastPairs.capture)))).seq

theorem prunes_blockLines {ls : List (Expr Symbol)}
    (h : PrunesSeq grammar (ls ++ [Expr.capture "bootstrap_sequence" (.rule Symbol.steps)]) P) :
    PrunesSeq grammar (Form.blockLines ls) P :=
  .commit (prunes_next final_vmSpec.capture (prunes_skip rfl (prunes_next final_flavor.capture
    (prunes_skip rfl h))))

theorem prunes_loadBalancer : Prunes grammar (.rule .loadBalancer) (Stray blockRules) :=
  prunes_rule (prunes_skip rfl (prunes_blockLines (prunes_last prunes_steps.capture))).seq

theorem prunes_box : Prunes grammar (.rule .box) (Stray blockRules) :=
  prunes_rule (prunes_skip rfl (prunes_blockLines (prunes_last prunes_steps.capture))).seq

/-- Listeners that go astray leave no line that opens the steps. -/
theorem prunes_pool : Prunes grammar (.rule .pool) (Stray blockRules) := by
  refine prunes_rule (prunes_skip rfl (prunes_skip rfl (prunes_blockLines
    (.cons grammar_settled prunes_listeners.capture (fun mid hs => ?_)
      (prunes_skip rfl (prunes_last prunes_steps.capture)))))).seq
  exact .seq_cons hs.newline fun rest hs => (hs.here (by simp)).capture.seq.leaves

theorem prunes_blockList {element : Symbol} {name : String} {make : List Node → Except Fault Node}
    (hX : grammar.rule X = .listOf name element (.oneOrMore Form.newline) make)
    (hmem : element ∈ blockRules) (h : Prunes grammar (.rule element) (Stray blockRules)) :
    Prunes grammar (.rule X) (Stray blockRules) := by
  refine prunes_lineList hX rfl accepts_newlines (fun _ => newlines_isBreak) hmem h ?_
  intro n cs hn ha hf
  refine .of_block (List.mem_cons_of_mem _ hmem) hn ha.not_failed_of_aborted fun Y hY => ⟨hY, ?_⟩
  intro he
  exact he ▸ .of_failed hf

/-! ## Sections -/

/-- A section may be left out without commits where it is aborted, and its block stays. -/
theorem prunes_optional (hX : X ∈ Symbol.defaults :: blockRules)
    (hfail : ∀ cs, Reads grammar (.rule X) cs .failed → Reads grammar e cs .failed)
    (h : Prunes grammar e (Stray (blockRules.erase X))) :
    Prunes grammar (.optional e) (Stray (blockRules.erase X)) := by
  refine h.optional fun cs ha => ?_
  have hblock : ¬ Reads grammar (.rule X) cs .failed := fun hf =>
    ha.not_failed_of_aborted (hfail cs hf)
  refine .of_block (n := []) hX (by simp) hblock fun Y hY => ?_
  obtain ⟨hne, hmem⟩ := (List.Nodup.mem_erase_iff (by decide)).1 hY
  exact ⟨hmem, fun he => absurd he.symm hne⟩

/-- The end of a section leaves a stray line where it is. -/
theorem prunes_break (h : Prunes grammar e (Stray Xs)) :
    PrunesSeq grammar [e, .rule .sectionBreak] (Stray Xs) := by
  refine .cons grammar_settled h (fun mid hs => ?_) (prunes_skip rfl .nil)
  exact .seq_cons hs.sectionBreak fun rest hs => .seq_nil hs

theorem prunes_section (name : String) (hX : X ∈ Symbol.defaults :: blockRules)
    (hfail : ∀ cs, Reads grammar (.rule X) cs .failed → Reads grammar (.rule Y) cs .failed)
    (h : Prunes grammar (.rule Y) (Stray blockRules)) :
    Prunes grammar (.optional (.seq [.capture name (.rule Y), .rule .sectionBreak]))
      (Stray (blockRules.erase X)) := by
  refine prunes_optional hX (fun cs hf =>
    .seq_failed (.capture_unmatched (hfail cs hf) (.inl rfl))) ?_
  exact (prunes_break (prunes_mono h fun _ => List.mem_of_mem_erase).capture).seq

/-- A load balancer that goes astray is followed by no pools. -/
theorem prunes_machines :
    Prunes grammar (.optional (.seq [.capture "load_balancer" (.rule .loadBalancer),
      .oneOrMore Form.newline, .capture "pools" (.rule .poolList), .rule .sectionBreak]))
      (Stray (blockRules.erase .loadBalancer)) := by
  refine prunes_optional (by decide) (fun cs hf =>
    .seq_failed (.capture_unmatched hf (.inl rfl))) ?_
  have hpools : Prunes grammar (.rule .poolList) (Stray (blockRules.erase .loadBalancer)) :=
    prunes_mono (prunes_blockList rfl (by decide) prunes_pool) fun _ => List.mem_of_mem_erase
  refine (PrunesSeq.cons grammar_settled prunes_loadBalancer.capture (fun mid hs => ?_)
    (prunes_skip rfl (prunes_break hpools.capture))).seq
  refine .seq_cons hs.newlines fun rest hs => ?_
  exact (Unmatched.listOf rfl (hs.here (by decide))).capture.seq.leaves

theorem prunes_boxes :
    Prunes grammar (.optional (.capture "boxes" (.rule .boxList)))
      (Stray (blockRules.erase .box)) := by
  refine prunes_optional (by decide) (fun cs hf => .capture_unmatched (.listOf_failed rfl hf)
    (.inl rfl)) ?_
  exact (prunes_mono (prunes_blockList rfl (by decide) prunes_box) fun _ =>
    List.mem_of_mem_erase).capture

namespace Stray

/-! No document goes on before a stray line, whatever sections are still to come. -/

theorem boxes (h : Stray Xs cs) (hbox : .box ∈ Xs) :
    Unmatched grammar.uncommitted
      (.seq [.optional (.capture "boxes" (.rule .boxList)), .rule .endOfInput]) cs :=
  .optional (.capture (.listOf rfl (h.here hbox))) h.endOfInput.seq

theorem machines (h : Stray Xs cs) (hlb : .loadBalancer ∈ Xs) (hbox : .box ∈ Xs) :
    Unmatched grammar.uncommitted
      (.seq [.optional (.seq [.capture "load_balancer" (.rule .loadBalancer),
          .oneOrMore Form.newline, .capture "pools" (.rule .poolList), .rule .sectionBreak]),
        .optional (.capture "boxes" (.rule .boxList)), .rule .endOfInput]) cs :=
  .optional (h.here hlb).capture.seq (h.boxes hbox)

theorem declarations (h : Stray Xs cs) (hmem : .declaration ∈ Xs) (hlb : .loadBalancer ∈ Xs)
    (hbox : .box ∈ Xs) :
    Unmatched grammar.uncommitted
      (.seq [.optional (.seq [.capture "named" (.rule .declarationList), .rule .sectionBreak]),
        .optional (.seq [.capture "load_balancer" (.rule .loadBalancer),
          .oneOrMore Form.newline, .capture "pools" (.rule .poolList), .rule .sectionBreak]),
        .optional (.capture "boxes" (.rule .boxList)), .rule .endOfInput]) cs :=
  .optional (Unmatched.listOf rfl (h.here hmem)).capture.seq (h.machines hlb hbox)

end Stray

theorem final_start : Final grammar (.rule .start) := by
  -- A section may leave the line that opens its own block: no section is tried a second time.
  have hdefaults : Prunes grammar _ (Stray (blockRules.erase .defaults)) :=
    prunes_section "defaults" (by decide) (fun _ => id) prunes_defaults
  have hnamed : Prunes grammar _ (Stray (blockRules.erase .declaration)) :=
    prunes_section "named" (Y := .declarationList) (by decide)
      (fun _ => .listOf_failed rfl) (prunes_blockList rfl (by decide) prunes_declaration)
  refine prunes_rule (PrunesSeq.seq (prunes_skip rfl (.cons grammar_settled hdefaults ?_
    (.cons grammar_settled hnamed ?_ (.cons grammar_settled prunes_machines ?_
      (.cons grammar_settled prunes_boxes ?_ (prunes_skip rfl .nil)))))))
  · exact fun mid hs => hs.declarations (by decide) (by decide) (by decide)
  · exact fun mid hs => hs.machines (by decide) (by decide)
  · exact fun mid hs => hs.boxes (by decide)
  · exact fun mid hs => hs.endOfInput.seq

/-- Without the commits a text is the document of the formation that it is with them, and of none
if it is of none with them. -/
theorem run_uncommitted_iff (text : String) (f : Formation) :
    (grammar.run .start text).result = .ok [.formation f] ↔
      (grammar.uncommitted.run .start text).result = .ok [.formation f] :=
  final_start.run_ok_iff grammar_settled grammar_notLeftRecursive uncommitted_notLeftRecursive
    text _

end Fleet.Document
