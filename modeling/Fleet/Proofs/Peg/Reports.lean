import Fleet.Proofs.Peg.Absorption
import Fleet.Proofs.Peg.Tracing
import Fleet.Proofs.Peg.Verdict
/-!
What a run tells of a text, by what happened in it. A refusal by an action is the last thing that
happens and is what is told (`rejection_final`); so is a failure behind a commit, together with the
rule around it (`committed_failure_reported`). Where there is neither, the report sums up all that
could not be matched (`uncommitted_report_sums`). Of lookaheads nothing is told.
-/

namespace Fleet.Peg
open Fleet.Text

variable {ι ν ε : Type}

/-- How a text comes out when nothing is pending. -/
def Outcome.Tells (o : Outcome ν) (result : Except (Refusal ε) (List ν)) : Prop :=
  match o with
  | .matched l items =>
    if l.atEnd then result = .ok (items.filterMap Item.node?)
    else ∃ f, result = .error (.malformed f)
  | .failed _ | .aborted _ => ∃ f, result = .error (.malformed f)

theorem tells_conclude {s : State ν ε} (hr : s.rejection = none) (o : Outcome ν) :
    o.Tells (conclude (o, s)) := by
  cases o with
  | failed e => exact ⟨_, conclude_failed hr e⟩
  | aborted e => exact ⟨_, conclude_aborted hr e⟩
  | matched l items =>
    unfold Outcome.Tells
    dsimp only
    split
    · next hend => exact conclude_matched hr hend items
    · next hend => exact ⟨_, conclude_leftOver hr (by simpa using hend) items⟩

section Unanchored
variable {s : State ν ε} {e f : Failure}

theorem unanchored_of_failed (hr : s.rejection = none) (hs : ∀ m ∈ s.furthest, m.anchor = none)
    (he : e.anchor = none) (hf : conclude (.failed e, s) = .error (.malformed f)) :
    f.anchor = none := by
  rw [conclude_failed hr] at hf
  cases hf
  exact Failure.unanchored_join hs he

theorem unanchored_of_matched {l : Cursor} {items : List (Item ν)} (hr : s.rejection = none)
    (hs : ∀ m ∈ s.furthest, m.anchor = none)
    (hf : conclude (.matched l items, s) = .error (.malformed f)) : f.anchor = none := by
  cases hend : l.atEnd with
  | true =>
    rw [conclude_matched hr hend] at hf
    cases hf
  | false =>
    rw [conclude_leftOver hr hend] at hf
    cases hf
    have he : (Failure.single s.path l .endOfText "end of input").anchor = none := rfl
    exact Failure.unanchored_join (Failure.unanchored_record hs he) he

end Unanchored

/-- To merge what is noted already with what it comes from adds nothing. -/
theorem State.Notes.join_mem {s : State ν ε} {f : Failure} (h : s.Notes f) :
    Failure.join s.furthest f ∈ s.furthest := by
  obtain ⟨m, hm, hcovers⟩ := h
  rw [Option.mem_def.1 hm]
  exact congrArg some (Failure.furthest_of_covers hcovers).symm

section Sums
variable {s : State ν ε} {fs : List Failure} {e f : Failure}

theorem sums_of_failed (hr : s.rejection = none) (hs : s.furthest = Failure.noteAll none fs)
    (hfs : ∀ f ∈ fs, f.expected.Nodup) (he : s.Notes e)
    (hf : conclude (.failed e, s) = .error (.malformed f)) : Failure.Sums fs f := by
  rw [conclude_failed hr] at hf
  cases hf
  exact Failure.sums_noteAll hfs (hs ▸ he.join_mem)

/-- Text that is left over is one more failure to note. -/
theorem sums_of_leftOver {l : Cursor} {items : List (Item ν)} (hr : s.rejection = none)
    (h0 : s.lookahead = 0) (hs : s.furthest = Failure.noteAll none fs)
    (hfs : ∀ f ∈ fs, f.expected.Nodup) (hend : l.atEnd = false)
    (hf : conclude (.matched l items, s) = .error (.malformed f)) :
    Failure.Sums (fs ++ [.single s.path l .endOfText "end of input"]) f := by
  rw [conclude_leftOver hr hend] at hf
  cases hf
  let e : Failure := .single s.path l .endOfText "end of input"
  have hnoted : (s.record e).furthest = Failure.noteAll none (fs ++ [e]) := by
    simp [State.record, h0, hs, Failure.noteAll]
  have hnodup : ∀ f ∈ fs ++ [e], f.expected.Nodup := by
    simpa [or_imp, forall_and, e, Failure.single] using hfs
  have hjoin := (State.Notes.of_record h0 e).join_mem
  exact Failure.sums_noteAll hnodup (hnoted ▸ hjoin)

end Sums

variable [BEq ι] {g : Grammar ι ν ε} {id : ι} {text : String}

/-- The answer that a run comes to, with its account. -/
theorem Grammar.Terminates.accounts (h : g.Terminates id text) :
    ∃ o t, eval g (g.budget text.toList.length) (.rule id) (.ofText text) .start = some (o, t) ∧
      g.run id text = ⟨conclude (o, t), t.rejections.reverse⟩ ∧
      Accounts g [⟨(g.rule id).name, .start⟩] (.ofText text) .start (g.trace id text) (o, t) := by
  obtain ⟨⟨o, t⟩, heval, hrun⟩ := h.run
  exact ⟨o, t, heval, hrun, accounts_of_rule heval⟩

/-- The journal of a run has every refusal by an action, in lookaheads or not. -/
theorem run_rejections (h : g.Terminates id text) :
    (g.run id text).rejections = (g.trace id text).refusals g := by
  obtain ⟨o, t, -, hrun, -, hrecords⟩ := h.accounts
  have hall : t.rejections = ((g.trace id text).refusals g).reverse :=
    hrecords.rejections.trans (List.append_nil _)
  rw [hrun, hall, List.reverse_reverse]

/-- A lookahead succeeds when an action in it refuses, and what was refused is gone. -/
theorem lookahead_of_refusal {n : Nat} {e : Expr ι} {k j : Cursor} {s : State ν ε}
    {a : Outcome ν × State ν ε} {i : ι} {error : ε} (h : eval g (n + 1) (.not e) k s = some a)
    (hmem : .acted i j (.error error) ∈ (trace g n s.frames e k s.lookAhead).outside) :
    a.1 = .matched k [] ∧ a.2.rejection = none ∧ s.Extends a.2 [] := by
  rw [eval_not] at h
  obtain ⟨⟨o, t⟩, he, rfl⟩ := Option.map_eq_some_iff.1 h
  obtain ⟨bs, ht⟩ := extends_of_eval he
  cases o with
  | matched l items =>
    obtain ⟨hq, -⟩ := (accounts_of_eval he).of_matched
    exact absurd hmem (hq.not_mem rfl)
  | failed | aborted => exact ⟨rfl, rfl, ht.lookBack.clearRejection⟩

/-- An action's refusal outside lookaheads is what the run tells, whatever is around it, and the
last thing that happens. Without one the run tells how the match of the text came out. A refusal in
a lookahead makes the innermost one around it succeed without consuming anything, and is gone. -/
theorem rejection_final (h : g.Terminates id text) :
    (∀ error, (g.run id text).result = .error (.rejected error) ↔
      ∃ i k, .acted i k (.error error) ∈ (g.trace id text).outside) ∧
    (∀ i k error, .acted i k (.error error) ∈ (g.trace id text).outside →
      ∃ before, g.trace id text = before ++ [(0, .acted i k (.error error))] ∧
        Trace.Quiet before) ∧
    ((∀ i k error, .acted i k (.error error) ∉ (g.trace id text).outside) →
      ∃ o t, eval g (g.budget text.toList.length) (.rule id) (.ofText text) .start = some (o, t) ∧
        t.rejection = none ∧ o.Tells (g.run id text).result) ∧
    ∀ n e k (s : State ν ε) a, eval g (n + 1) (.not e) k s = some a →
      ∀ i j error, .acted i j (.error error) ∈ (trace g n s.frames e k s.lookAhead).outside →
        a.1 = .matched k [] ∧ a.2.rejection = none ∧ s.Extends a.2 [] := by
  obtain ⟨o, t, heval, hrun, hending, -⟩ := h.accounts
  have hpending : ∀ error, t.rejection = some error ↔
      ∃ i k, .acted i k (.error error) ∈ (g.trace id text).outside :=
    fun _ => hending.rejection_iff rfl
  refine ⟨?_, ?_, ?_, ?_⟩
  · intro error
    rw [hrun, conclude_rejected_iff]
    exact hpending error
  · intro i k error hmem
    exact hending.final_last hmem rfl
  · intro hno
    have hr : t.rejection = none := by
      refine Option.eq_none_iff_forall_ne_some.2 fun error he => ?_
      obtain ⟨i, k, hmem⟩ := (hpending error).1 he
      exact hno i k error hmem
    rw [hrun]
    exact ⟨o, t, heval, hr, tells_conclude hr o⟩
  · intro n e k s a ha i j error hmem
    exact lookahead_of_refusal ha hmem

/-- The one rule with an action refuses what it matches: once in a lookahead, which then succeeds,
and once outside of it, in an option. -/
theorem rejection_final_option :
    let g : Grammar Bool Unit String :=
      ⟨[false, true], fun
        | false => .acting "letter" (.literal "a") fun _ => .error "refused"
        | true => .transparent "start" (.choice
            [.seq [.not (.rule false), .literal "b"], .optional (.rule false)]),
        by decide⟩
    (g.run true "a").result = .error (.rejected "refused") ∧
      (∃ i k before, g.trace true "a" = before ++ [(0, .acted i k (.error "refused"))]) ∧
      g.Terminates true "a" := by
  intro g
  have hends : g.Terminates true "a" := ⟨20, by decide +kernel⟩
  have hresult : (g.run true "a").result = .error (.rejected "refused") := by decide +kernel
  obtain ⟨hrejected, hlast, -, -⟩ := rejection_final hends
  obtain ⟨i, k, hmem⟩ := (hrejected "refused").1 hresult
  obtain ⟨before, htrace, -⟩ := hlast i k "refused" hmem
  exact ⟨hresult, ⟨i, k, before, htrace⟩, hends⟩

/-- An element that fails behind a commit, outside lookaheads, is the last thing that happens. It is
told as it failed, and the innermost rule around it is told with the place where it began; no other
failure is told so. -/
theorem committed_failure_reported (h : g.Terminates id text) :
    (∀ within f, .cut within f ∈ (g.trace id text).outside →
      ∃ before frame around, g.trace id text = before ++ [(0, .cut within f)] ∧ Trace.Quiet before ∧
        within = frame :: around ∧
        (g.run id text).result = .error (.malformed { f with anchor := some frame.anchor }) ∧
        frame.start.Precedes f.cursor.pos ∧ pathOf within <+: f.path) ∧
    ∀ f anchor, (g.run id text).result = .error (.malformed f) → f.anchor = some anchor →
      ∃ within e, .cut within e ∈ (g.trace id text).outside := by
  obtain ⟨o, t, heval, hrun, hending, hrecords⟩ := h.accounts
  refine ⟨?_, ?_⟩
  · intro within f hmem
    obtain ⟨before, htrace, hq⟩ := hending.final_last hmem rfl
    obtain ⟨rfl, hr, hsuffix, j, hbegan, harises⟩ := hending.of_cut hmem
    cases within with
    | nil => simp at hsuffix
    | cons frame around =>
      obtain ⟨l, hl, hreach⟩ := hbegan (began_cons _ [] (.ofText text)) frame rfl
      have hplace := (hreach.trans harises.cursor).precedes
      rw [hl] at hplace
      rw [hrun]
      exact ⟨before, frame, around, htrace, hq, rfl, conclude_aborted (hr rfl) _, hplace,
        harises.path⟩
  · intro f anchor hf ha
    rw [hrun] at hf
    have hnote : ∀ m ∈ t.furthest, m.anchor = none := by
      rw [show t.furthest = _ from hrecords.furthest]
      exact Failure.unanchored_noteAll nofun fun x hx => Trace.unanchored_of_mem_misses hx
    have hnone (hf : f.anchor = none) : False := by
      rw [hf] at ha
      cases ha
    generalize g.trace id text = tr at hending
    cases hending with
    | matched _ hr => exact (hnone (unanchored_of_matched (hr rfl) hnote hf)).elim
    | failed _ hr he => exact (hnone (unanchored_of_failed (hr rfl) hnote he.unanchored hf)).elim
    | rejected _ hr =>
      rw [conclude_rejected hr] at hf
      cases hf
    | @cut before inner _ e => exact ⟨inner, e, by simp⟩

/-- The entry is committed by its first letter. It fails at the third, where a failure further into
the text is known of already. -/
theorem committed_failure_reported_entry :
    let g : Grammar Unit Unit Unit :=
      ⟨[()], fun _ => .transparent "entry" (.choice
        [.seq [.literal "ab", .literal "c", .literal "d"],
          .seq [.literal "a", .commit, .literal "b", .literal "d"]]), by simp⟩
    ∃ before frame around f,
      g.trace () "abc" = before ++ [(0, .cut (frame :: around) f)] ∧
        (g.run () "abc").result = .error (.malformed { f with anchor := some frame.anchor }) ∧
        frame.start.Precedes f.cursor.pos ∧ pathOf (frame :: around) <+: f.path := by
  intro g
  have hends : g.Terminates () "abc" := ⟨20, by decide +kernel⟩
  have hresult : ∃ f anchor, (g.run () "abc").result = .error (.malformed f) ∧
      f.anchor = some anchor :=
    ⟨_, ⟨"entry", 1, 1⟩, rfl, rfl⟩
  obtain ⟨hreported, hanchored⟩ := committed_failure_reported hends
  obtain ⟨f, anchor, hf, ha⟩ := hresult
  obtain ⟨within, e, hmem⟩ := hanchored f anchor hf ha
  obtain ⟨before, frame, around, htrace, -, rfl, hrun, hplace, hpath⟩ := hreported within e hmem
  exact ⟨before, frame, around, e, htrace, hrun, hplace, hpath⟩

/-- What is left over of a text when the rule has matched, as a failure to find its end. -/
def Grammar.leftOver (g : Grammar ι ν ε) (id : ι) (text : String) : List Failure :=
  match eval g (g.budget text.toList.length) (.rule id) (.ofText text) .start with
  | some (.matched l _, _) => if l.atEnd then [] else [.single [] l .endOfText "end of input"]
  | _ => []

/-- Where no choice is empty, a report without an anchor sums up what could not be matched outside
lookaheads, in the order in which it happened, and that the end of the text was not reached: it is
the first of these failures that are furthest into the text, with what all of them at that place
expected. -/
theorem uncommitted_report_sums (hg : g.AlwaysOffers) (h : g.Terminates id text) {f : Failure}
    (hf : (g.run id text).result = .error (.malformed f)) (ha : f.anchor = none) :
    Failure.Sums ((g.trace id text).misses ++ g.leftOver id text) f := by
  obtain ⟨o, t, heval, hrun, hending, hrecords⟩ := h.accounts
  have hnote : t.furthest = Failure.noteAll none (g.trace id text).misses := hrecords.furthest
  have h0 : t.lookahead = 0 := hrecords.lookahead
  obtain ⟨bs, hext⟩ := extends_of_eval heval
  have hnodup : ∀ x ∈ (g.trace id text).misses, x.expected.Nodup :=
    fun x hx => Trace.nodup_of_mem_misses hx
  rw [Grammar.leftOver, heval]
  rw [hrun] at hf
  generalize g.trace id text = tr at hending hnote hnodup
  cases hending with
  | @matched _ l items _ _ hr =>
    cases hend : l.atEnd with
    | true =>
      rw [conclude_matched (hr rfl) hend] at hf
      cases hf
    | false =>
      have hpath : t.path = [] := by simp [State.path, hext.frames, State.start]
      have hsums := sums_of_leftOver (hr rfl) h0 hnote hnodup hend hf
      simpa [hpath, hend] using hsums
  | failed _ hr =>
    simpa using sums_of_failed (hr rfl) hnote hnodup (notes_of_eval hg rfl rfl heval) hf
  | rejected _ hr =>
    rw [conclude_rejected hr] at hf
    cases hf
  | @cut before inner j e _ _ hr hsuffix =>
    rw [conclude_aborted (hr rfl)] at hf
    cases hf
    cases inner with
    | nil => simp at hsuffix
    | cons => cases ha

/-- Two letters are expected where a third is: by an alternative, by an option that is passed over,
and once more by the end of a repetition. -/
theorem uncommitted_report_sums_letters :
    let g : Grammar Unit Unit Unit :=
      ⟨[()], fun _ => .transparent "letters" (.seq [.choice [.literal "a", .literal "b"],
        .optional (.literal "b"), .zeroOrMore (.choice [.literal "a", .literal "b"])]), by simp⟩
    let f : Failure :=
      ⟨["letters"], ⟨['c'], ⟨1, 1, 2⟩⟩, .literal, ["\"b\"", "\"a\"", "end of input"], none⟩
    (g.run () "ac").result = .error (.malformed f) ∧
      Failure.Sums ((g.trace () "ac").misses ++ g.leftOver () "ac") f := by
  intro g f
  have hoffers : g.AlwaysOffers := fun _ => rfl
  have hends : g.Terminates () "ac" := ⟨20, by decide +kernel⟩
  have hresult : (g.run () "ac").result = .error (.malformed f) := by decide +kernel
  exact ⟨hresult, uncommitted_report_sums hoffers hends hresult rfl⟩

end Fleet.Peg
