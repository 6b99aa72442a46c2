import Fleet.Peg.Equations
import Fleet.Proofs.Peg.Abreast
import Fleet.Proofs.Peg.Verdict
/-!
A rule table to which line ends are all the same answers a text and what it is with other line ends
alike (`run_concurs`). Two runs are compared here, so the proof is by induction on the number of
steps, over the five functions of the matcher: what two runs of `n` steps answer is alike, so what
two runs of `n + 1` steps do is.
-/

namespace Fleet.Peg
open Fleet.Text

variable {ι ν ε : Type} [BEq ι] {g : Grammar ι ν ε} {newline : ι} {eol : LineEnd}
  {text : List Char} {names : List String} {n depth : Nat} {held : Option Failure × Option Failure}
  {reads : Bool} {k k' : Cursor} {s s' : State ν ε} {a a' : Outcome ν × State ν ε}

/-! ## Line ends -/

/-- Three words are tried one after the other, and each that is not there is noted. -/
theorem eval_literals (g : Grammar ι ν ε) (n : Nat) (w₁ w₂ w₃ : String) (k : Cursor)
    (s : State ν ε) :
    eval g (n + 5) (.choice [.literal w₁, .literal w₂, .literal w₃]) k s = some (
      let miss (word : String) := Failure.single s.path k .literal (quote word)
      match k.strip? w₁.toList, k.strip? w₂.toList, k.strip? w₃.toList with
      | some l, _, _ => (.matched l [.text w₁], s)
      | none, some l, _ => (.matched l [.text w₂], s.record (miss w₁))
      | none, none, some l => (.matched l [.text w₃], (s.record (miss w₁)).record (miss w₂))
      | none, none, none => (.failed (((miss w₁).furthest (miss w₂)).furthest (miss w₃)),
          ((s.record (miss w₁)).record (miss w₂)).record (miss w₃))) := by
  rw [eval, evalChoice, eval_literal]
  cases k.strip? w₁.toList with
  | some l => rfl
  | none =>
    simp only [State.fail]
    rw [evalChoice, eval_literal]
    cases k.strip? w₂.toList with
    | some l => rfl
    | none =>
      simp only [State.fail]
      rw [evalChoice, eval_literal]
      cases k.strip? w₃.toList with
      | some l => simp [State.unwind]
      | none =>
        simp only [State.fail]
        rw [evalChoice]
        simp [State.unwind, State.resetScope_mark, Failure.join]

/-- Failures at `k` are added to those noted. -/
theorem Adds.record {f : Option Failure} {s : State ν ε} (h : Adds k f s.furthest) {e : Failure}
    (he : e.cursor = k) : Adds k f (s.record e).furthest := by
  unfold State.record
  split
  · exact h.join he
  · exact h

/-- At a line end each run matches it in its own way, after failures that it leaves behind. -/
theorem Abreast.past {t t' : State ν ε} {l l' : Cursor}
    (h : Abreast eol text names depth held k k' s s') (hl : Beside eol text l l')
    (ht : t.Beside eol names depth held t') (ha : Adds k s.furthest t.furthest)
    (ha' : Adds k' s'.furthest t'.furthest) (hlt : k.offset < l.offset) :
    Abreast eol text names depth held l l' t t' where
  place := hl
  state := ht
  level h0 := (h.level h0).past h.place ha ha' hlt ((h.place.offset_lt hl).1 hlt)

/-- None of three words is there for either run. -/
theorem Abreast.literals_missed {a b c : String}
    (h : Abreast eol text names depth held k k' s s') :
    let miss (s : State ν ε) (k : Cursor) (word : String) :=
      Failure.single s.path k .literal (quote word)
    Alike eol text names depth held reads
      (.failed (((miss s k a).furthest (miss s k b)).furthest (miss s k c)),
        ((s.record (miss s k a)).record (miss s k b)).record (miss s k c))
      (.failed (((miss s' k' a).furthest (miss s' k' b)).furthest (miss s' k' c)),
        ((s'.record (miss s' k' a)).record (miss s' k' b)).record (miss s' k' c)) := by
  have hmiss (word : String) := Failure.Beside.single h.place s.path .literal (quote word)
  dsimp only
  rw [← h.state.path]
  obtain ⟨h, -⟩ := h.record (hmiss a) rfl rfl
  obtain ⟨h, -⟩ := h.record (hmiss b) rfl rfl
  obtain ⟨h, hrel⟩ := h.record (hmiss c) rfl rfl
  exact .failed (((hmiss a).furthest (hmiss b)).furthest (hmiss c)) h.state hrel

/-- Of the three words for a line end the run over line feeds misses the first, the run over CR LF
none, and the run over CR the first two. -/
theorem lineEnd_alike (ht : '\r' ∉ text) (h : Abreast eol text names depth held k k' s s')
    (ha : eval g n .lineEnd k s = some a) (ha' : eval g n .lineEnd k' s' = some a') :
    Alike eol text names depth held false a a' := by
  have ha := eval_mono (Nat.le_add_right n 5) ha
  have ha' := eval_mono (Nat.le_add_right n 5) ha'
  rw [Expr.lineEnd, eval_literals] at ha ha'
  obtain ⟨h₁, h₂, h₃⟩ : "\r\n".toList = ['\r', '\n'] ∧ "\n".toList = ['\n'] ∧
      "\r".toList = ['\r'] := by
    decide
  simp only [h₁, h₂, h₃, Option.some.injEq] at ha ha'
  rcases h.place.next ht with ⟨hk, hk'⟩ | ⟨c, l, l', hn, hr, hk, hk', -⟩ |
    ⟨rest, l, l', hk, hk', hs, hs', hl⟩
  · simp only [Cursor.strip?_cons_of_end hk] at ha
    simp only [Cursor.strip?_cons_of_end hk'] at ha'
    subst ha ha'
    exact h.literals_missed
  · simp only [Cursor.strip?_cons hk, if_neg (Ne.symm hn), if_neg (Ne.symm hr)] at ha
    simp only [Cursor.strip?_cons hk', if_neg (Ne.symm hn), if_neg (Ne.symm hr)] at ha'
    subst ha ha'
    exact h.literals_missed
  · obtain ⟨m, hm⟩ := Cursor.exists_next? hk
    have hcrlf : k.strip? ['\r', '\n'] = none := by simp [Cursor.strip?_cons hm]
    simp only [hcrlf, hs] at ha
    subst ha
    have hlt := Cursor.offset_lt_of_strip? hs
    have hadds := (Adds.refl k s.furthest).record (s := s)
      (e := .single s.path k .literal (quote "\r\n")) rfl
    have hleft := h.state.record_left (.single s.path k .literal (quote "\r\n"))
    cases eol with
    | crlf =>
      rw [LineEnd.chars] at hs'
      simp only [hs'] at ha'
      subst ha'
      exact .matched (h.past hl hleft hadds (.refl _ _) hlt) rfl
    | cr =>
      rw [LineEnd.chars] at hs'
      obtain ⟨m', hm'⟩ := LineEnd.cr.next?_chars hk'
      have hlf : k'.strip? ['\n'] = none := by simp [Cursor.strip?_cons hm']
      simp only [LineEnd.strip?_crlf_of_cr hk', hlf, hs'] at ha'
      subst ha'
      refine .matched (h.past hl ((hleft.record_right _).record_right _) hadds ?_ hlt) rfl
      exact ((Adds.refl k' s'.furthest).record rfl).record rfl

/-! ## Characters -/

theorem literal_alike (ht : '\r' ∉ text) {word : String} (hw : unbroken word.toList = true)
    (h : Abreast eol text names depth held k k' s s') (ha : eval g n (.literal word) k s = some a)
    (ha' : eval g n (.literal word) k' s' = some a') :
    Alike eol text names depth held reads a a' := by
  cases n with
  | zero => simp [eval] at ha
  | succ n =>
    rw [eval_literal, Option.some.injEq] at ha ha'
    subst ha ha'
    rcases h.place.strip ht (unbroken_iff.1 hw) with ⟨hk, hk'⟩ | ⟨l, l', hk, hk', hl⟩
    · rw [hk, hk']
      exact h.fail _ _
    · rw [hk, hk']
      exact .matched (h.go hl (Cursor.Reaches.offset_le ⟨_, hk⟩)) rfl

theorem oneOf_alike (ht : '\r' ∉ text) {cls : CharClass} (hn : cls.contains '\n' = false)
    (hr : cls.contains '\r' = false) (h : Abreast eol text names depth held k k' s s')
    (ha : eval g n (.oneOf cls) k s = some a) (ha' : eval g n (.oneOf cls) k' s' = some a') :
    Alike eol text names depth held reads a a' := by
  cases n with
  | zero => simp [eval] at ha
  | succ n =>
    rw [eval_oneOf, Option.some.injEq] at ha ha'
    subst ha ha'
    rcases h.place.next ht with ⟨hk, hk'⟩ | ⟨c, l, l', -, -, hk, hk', hl⟩ | ⟨_, _, _, hk, hk', -⟩
    · rw [hk, hk']
      exact h.fail _ _
    · rw [hk, hk']
      dsimp only
      split
      · exact .matched (h.go hl (Cursor.Reaches.of_next? hk).offset_le) rfl
      · exact h.fail _ _
    · obtain ⟨m, hm⟩ := Cursor.exists_next? hk
      obtain ⟨m', hm'⟩ := eol.next?_chars hk'
      rw [hm, hm']
      simp only [hn, hr, Bool.false_eq_true, if_false]
      exact h.fail _ _

/-- Whether there is a character left is the same. -/
theorem any_isMatch (ht : '\r' ∉ text) (h : Abreast eol text names depth held k k' s s')
    (ha : eval g n .any k s = some a) (ha' : eval g n .any k' s' = some a') :
    a.1.isMatch = a'.1.isMatch ∧ a.2.Beside eol names depth held a'.2 := by
  cases n with
  | zero => simp [eval] at ha
  | succ n =>
    rw [eval_any, Option.some.injEq] at ha ha'
    subst ha ha'
    rcases h.place.next ht with ⟨hk, hk'⟩ | ⟨c, l, l', -, -, hk, hk', -⟩ | ⟨_, _, _, hk, hk', -⟩
    · rw [hk, hk']
      have hfail : Alike eol text names depth held false (s.fail k .endOfText "any character")
          (s'.fail k' .endOfText "any character") := h.fail _ _
      exact ⟨rfl, hfail.state⟩
    · rw [hk, hk']
      exact ⟨rfl, h.state⟩
    · obtain ⟨m, hm⟩ := Cursor.exists_next? hk
      obtain ⟨m', hm'⟩ := eol.next?_chars hk'
      rw [hm, hm']
      exact ⟨rfl, h.state⟩

/-- Where no line ends both runs take the same character. -/
theorem any_alike (ht : '\r' ∉ text) (h : Abreast eol text names depth held k k' s s')
    (hk : ∀ rest, k.rest ≠ '\n' :: rest) (ha : eval g n .any k s = some a)
    (ha' : eval g n .any k' s' = some a') : Alike eol text names depth held reads a a' := by
  cases n with
  | zero => simp [eval] at ha
  | succ n =>
    rw [eval_any, Option.some.injEq] at ha ha'
    subst ha ha'
    rcases h.place.next ht with ⟨hk, hk'⟩ | ⟨c, l, l', -, -, hl, hl', hplace⟩ | ⟨rest, _, _, hr, -⟩
    · rw [hk, hk']
      exact h.fail _ _
    · rw [hl, hl']
      exact .matched (h.go hplace (Cursor.Reaches.of_next? hl).offset_le) rfl
    · exact absurd hr (hk rest)

/-! ## The five functions -/

/-- What two runs of `n` steps answer is alike, in each of the five functions. -/
structure AlikeAt (g : Grammar ι ν ε) (newline : ι) (eol : LineEnd) (text : List Char)
    (names : List String) (n : Nat) : Prop where
  expr : ∀ {depth held reads e k k' s s' a a'}, g.neutral newline names reads e = true →
    Abreast eol text names depth held k k' s s' → eval g n e k s = some a →
    eval g n e k' s' = some a' → Alike eol text names depth held reads a a'
  seq : ∀ {depth held reads es c k k' s s' a a'},
    (Expr.isGuarded newline es || g.neutralAll newline names reads es) = true →
    Abreast eol text names depth held k k' s s' → evalSeq g n es c k s = some a →
    evalSeq g n es c k' s' = some a' → Alike eol text names depth held reads a a'
  choice : ∀ {depth held reads es best best' k k' s s' a a'},
    g.neutralAll newline names reads es = true →
    Option.Rel (Failure.Beside eol text) best best' → (best = none → es ≠ []) →
    (best ≠ none → depth = 0 → Option.Rel (Failure.Beside eol text) s.furthest s'.furthest) →
    Abreast eol text names depth held k k' s s' → evalChoice g n es best k s = some a →
    evalChoice g n es best' k' s' = some a' → Alike eol text names depth held reads a a'
  many : ∀ {depth held reads e q k k' s s' a a'}, g.neutral newline names reads e = true →
    Abreast eol text names depth held k k' s s' → evalMany g n e q k s = some a →
    evalMany g n e q k' s' = some a' → Alike eol text names depth held reads a a'
  rule : ∀ {depth held reads id k k' s s' a a'}, (!reads || (g.rule id).action.isSome) = true →
    Abreast eol text names depth held k k' s s' → evalRule g n id k s = some a →
    evalRule g n id k' s' = some a' → Alike eol text names depth held reads a a'

/-- One element of a sequence after the other. What is known of a match of the first may be used
for those after it. -/
theorem evalSeq_cons_alike {e : Expr ι} {es : List (Expr ι)} {c : Bool} (hc : e ≠ .commit)
    (hfirst : ∀ b b', eval g n e k s = some b → eval g n e k' s' = some b' →
      Alike eol text names depth held reads b b')
    (hrest : ∀ l l' t t' items b b', eval g n e k s = some (.matched l items, t) →
      Abreast eol text names depth held l l' t t' → evalSeq g n es c l t = some b →
      evalSeq g n es c l' t' = some b' → Alike eol text names depth held reads b b')
    (ha : evalSeq g (n + 1) (e :: es) c k s = some a)
    (ha' : evalSeq g (n + 1) (e :: es) c k' s' = some a') :
    Alike eol text names depth held reads a a' := by
  rw [evalSeq_cons _ _ hc] at ha ha'
  cases hb : eval g n e k s with
  | none => simp [hb] at ha
  | some b =>
    cases hb' : eval g n e k' s' with
    | none => simp [hb'] at ha'
    | some b' =>
      simp only [hb] at ha
      simp only [hb'] at ha'
      cases hfirst b b' hb hb' with
      | @matched l l' items items' t t' h hi =>
        obtain ⟨d, hd, rfl⟩ := Option.map_eq_some_iff.1 ha
        obtain ⟨d', hd', rfl⟩ := Option.map_eq_some_iff.1 ha'
        exact (hrest l l' t t' items d d' hb h hd hd').after hi
      | failed he ht hf =>
        cases ha
        cases ha'
        cases c with
        | false => exact .failed he ht hf
        | true => exact .aborted (ht.anchored he) ht
      | aborted he ht =>
        cases ha
        cases ha'
        exact .aborted he ht

namespace AlikeAt

/-- What a lookahead comes to is the same, and the states after it are again as before it. -/
theorem not_succ (ht : '\r' ∉ text) (ih : AlikeAt g newline eol text names n) {e : Expr ι}
    (he : (e.isAny || g.neutral newline names false e) = true)
    (h : Abreast eol text names depth held k k' s s') (ha : eval g (n + 1) (.not e) k s = some a)
    (ha' : eval g (n + 1) (.not e) k' s' = some a') :
    Alike eol text names depth held reads a a' := by
  rw [eval_not] at ha ha'
  obtain ⟨c, hc, rfl⟩ := Option.map_eq_some_iff.1 ha
  obtain ⟨c', hc', rfl⟩ := Option.map_eq_some_iff.1 ha'
  obtain ⟨hmatch, hstate⟩ : c.1.isMatch = c'.1.isMatch ∧
      c.2.Beside eol names (depth + 1) (s.furthest, s'.furthest) c'.2 := by
    rcases Bool.or_eq_true_iff.1 he with hany | he
    · obtain rfl := Expr.of_isAny hany
      exact any_isMatch ht h.lookAhead hc hc'
    · have halike := ih.expr he h.lookAhead hc hc'
      exact ⟨halike.isMatch, halike.state⟩
  have hback := h.lookBack hstate s.scope.mark
  rw [← h.state.mark]
  obtain ⟨o, t⟩ := c
  obtain ⟨o', t'⟩ := c'
  cases o with
  | matched =>
    cases o' with
    | matched => exact hback.fail _ _
    | failed | aborted => cases hmatch
  | failed | aborted =>
    cases o' with
    | matched => cases hmatch
    | failed | aborted =>
      exact .matched ⟨hback.place, hback.state.clearRejection, hback.level⟩ rfl

theorem capture_succ (ih : AlikeAt g newline eol text names n) {e : Expr ι} {name : String}
    (he : g.neutral newline names (reads || decide (name ∈ names)) e = true)
    (h : Abreast eol text names depth held k k' s s')
    (ha : eval g (n + 1) (.capture name e) k s = some a)
    (ha' : eval g (n + 1) (.capture name e) k' s' = some a') :
    Alike eol text names depth held reads a a' := by
  rw [eval_capture] at ha ha'
  obtain ⟨c, hc, rfl⟩ := Option.map_eq_some_iff.1 ha
  obtain ⟨c', hc', rfl⟩ := Option.map_eq_some_iff.1 ha'
  have halike := ih.expr he h hc hc'
  have hreads : Alike eol text names depth held reads c c' := halike.imp fun hr => by simp [hr]
  have hnames : Alike eol text names depth held (decide (name ∈ names)) c c' :=
    halike.imp fun hn => by simp [hn]
  cases hreads with
  | matched hl hi =>
    cases hnames with
    | matched _ hi' => exact .matched ⟨hl.place, hl.state.capture name hi', hl.level⟩ hi
  | failed he ht hf => exact .failed he ht hf
  | aborted he ht => exact .aborted he ht

theorem expr_succ (ht : '\r' ∉ text) (ih : AlikeAt g newline eol text names n) {e : Expr ι}
    (he : g.neutral newline names reads e = true)
    (h : Abreast eol text names depth held k k' s s') (ha : eval g (n + 1) e k s = some a)
    (ha' : eval g (n + 1) e k' s' = some a') : Alike eol text names depth held reads a a' := by
  have hunwind {F F' : Option (Outcome ν × State ν ε)}
      (hF : ∀ b b', F = some b → F' = some b' → Alike eol text names depth held reads b b')
      (ha : F.map (State.unwind s.scope.mark) = some a)
      (ha' : F'.map (State.unwind s'.scope.mark) = some a') :
      Alike eol text names depth held reads a a' := by
    obtain ⟨b, hb, rfl⟩ := Option.map_eq_some_iff.1 ha
    obtain ⟨b', hb', rfl⟩ := Option.map_eq_some_iff.1 ha'
    rw [← h.state.mark]
    exact (hF b b' hb hb').unwind _
  cases e with
  | literal word => exact literal_alike ht he h ha ha'
  | oneOf cls =>
    obtain ⟨hn, hr⟩ : cls.contains '\n' = false ∧ cls.contains '\r' = false := by
      simpa [Grammar.neutral] using he
    exact oneOf_alike ht hn hr h ha ha'
  | any => cases he
  | not e => exact ih.not_succ ht he h ha ha'
  | capture name e => exact ih.capture_succ he h ha ha'
  | commit =>
    rw [eval] at ha ha'
    cases ha
    cases ha'
    exact h.here
  | seq items =>
    rw [eval] at ha ha'
    exact hunwind (fun _ _ => ih.seq he h) ha ha'
  | choice items =>
    obtain ⟨hne, hall⟩ : items ≠ [] ∧ g.neutralAll newline names reads items = true := by
      simpa [Grammar.neutral] using he
    rw [eval] at ha ha'
    exact hunwind (fun _ _ => ih.choice hall .none (fun _ => hne) (fun hp => absurd rfl hp) h)
      ha ha'
  | oneOrMore e | zeroOrMore e =>
    have hinner : g.neutral newline names reads e = true := he
    rw [eval] at ha ha'
    exact hunwind (fun _ _ => ih.many hinner h) ha ha'
  | rule id =>
    rw [eval] at ha ha'
    exact hunwind (fun _ _ => ih.rule he h) ha ha'
  | optional e =>
    have hinner : g.neutral newline names reads e = true := he
    rw [eval_optional] at ha ha'
    obtain ⟨c, hc, rfl⟩ := Option.map_eq_some_iff.1 ha
    obtain ⟨c', hc', rfl⟩ := Option.map_eq_some_iff.1 ha'
    cases ih.expr hinner h hc hc' with
    | matched hl hi => exact .matched hl hi
    | failed _ ht hf => exact .matched ⟨h.place, ht, fun h0 => .inl (hf h0)⟩ rfl
    | aborted he ht => exact .aborted he ht
  | ignore e =>
    have hinner : g.neutral newline names false e = true := he
    rw [eval_ignore] at ha ha'
    obtain ⟨c, hc, rfl⟩ := Option.map_eq_some_iff.1 ha
    obtain ⟨c', hc', rfl⟩ := Option.map_eq_some_iff.1 ha'
    cases ih.expr hinner h hc hc' with
    | matched hl => exact .matched hl rfl
    | failed he ht hf => exact .failed he ht hf
    | aborted he ht => exact .aborted he ht

theorem choice_succ (ih : AlikeAt g newline eol text names n) {es : List (Expr ι)}
    {best best' : Option Failure} (he : g.neutralAll newline names reads es = true)
    (hb : Option.Rel (Failure.Beside eol text) best best') (hne : best = none → es ≠ [])
    (hf : best ≠ none → depth = 0 → Option.Rel (Failure.Beside eol text) s.furthest s'.furthest)
    (h : Abreast eol text names depth held k k' s s')
    (ha : evalChoice g (n + 1) es best k s = some a)
    (ha' : evalChoice g (n + 1) es best' k' s' = some a') :
    Alike eol text names depth held reads a a' := by
  cases es with
  | nil =>
    rw [evalChoice] at ha ha'
    cases ha
    cases ha'
    cases hb with
    | none => exact absurd rfl (hne rfl)
    | some he => exact .failed he h.state (hf (by simp))
  | cons e es =>
    obtain ⟨he, hes⟩ := Bool.and_eq_true_iff.1 he
    rw [evalChoice] at ha ha'
    cases hc : eval g n e k s with
    | none => simp [hc] at ha
    | some c =>
      cases hc' : eval g n e k' s' with
      | none => simp [hc'] at ha'
      | some c' =>
        simp only [hc] at ha
        simp only [hc'] at ha'
        cases ih.expr he h hc hc' with
        | matched hl hi =>
          cases ha
          cases ha'
          exact .matched hl hi
        | aborted he ht =>
          cases ha
          cases ha'
          exact .aborted he ht
        | failed he ht hrel =>
          exact ih.choice hes (.some (.join hb he)) (by simp) (fun _ => hrel)
            ⟨h.place, ht, fun h0 => .inl (hrel h0)⟩ ha ha'

theorem many_succ (ih : AlikeAt g newline eol text names n) {e : Expr ι} {q : Bool}
    (he : g.neutral newline names reads e = true)
    (h : Abreast eol text names depth held k k' s s') (ha : evalMany g (n + 1) e q k s = some a)
    (ha' : evalMany g (n + 1) e q k' s' = some a') :
    Alike eol text names depth held reads a a' := by
  rw [evalMany_succ] at ha ha'
  cases hc : eval g n e k s with
  | none => simp [hc] at ha
  | some c =>
    cases hc' : eval g n e k' s' with
    | none => simp [hc'] at ha'
    | some c' =>
      simp only [hc] at ha
      simp only [hc'] at ha'
      cases ih.expr he h hc hc' with
      | @matched l l' items items' t t' hl hi =>
        have hlt := h.place.offset_lt hl.place
        dsimp only at ha ha'
        by_cases hgo : k.offset < l.offset
        · rw [if_pos hgo] at ha
          rw [if_pos (hlt.1 hgo)] at ha'
          obtain ⟨d, hd, rfl⟩ := Option.map_eq_some_iff.1 ha
          obtain ⟨d', hd', rfl⟩ := Option.map_eq_some_iff.1 ha'
          exact (ih.many he hl hd hd').after hi
        · rw [if_neg hgo] at ha
          rw [if_neg (mt hlt.2 hgo)] at ha'
          cases ha
          cases ha'
          exact .matched hl hi
      | failed he ht hf =>
        cases ha
        cases ha'
        cases q with
        | true => exact .failed he ht hf
        | false => exact .matched ⟨h.place, ht, fun h0 => .inl (hf h0)⟩ rfl
      | aborted he ht =>
        cases ha
        cases ha'
        exact .aborted he ht

theorem reads_lineFeed (hg : g.LineNeutral newline names) (rest : List Char) :
    Reads g (.rule newline) ('\n' :: rest) (.matched rest [.text "\n"] []) := by
  obtain ⟨name, hrule⟩ := hg.lineEnd
  refine .transparent (by rw [hrule]; rfl) ?_
  rw [hrule]
  refine .choice_next (.literal_failed ?_) (.choice_taken (.literal "\n" rest) (by simp))
  simp

/-- What is neither a mark nor a line end is one character in both texts. -/
theorem guarded (hg : g.LineNeutral newline names) (ht : '\r' ∉ text)
    (ih : AlikeAt g newline eol text names n) {mark : String} {c : Bool}
    (hmark : unbroken mark.toList = true) (h : Abreast eol text names depth held k k' s s')
    (ha : evalSeq g (n + 1) [.not (.choice [.literal mark, .rule newline]), .any] c k s = some a)
    (ha' : evalSeq g (n + 1) [.not (.choice [.literal mark, .rule newline]), .any] c k' s' =
      some a') : Alike eol text names depth held reads a a' := by
  have hneutral : g.neutral newline names reads (.not (.choice [.literal mark, .rule newline])) =
      true := by
    simp [Grammar.neutral, Grammar.neutralAll, hmark]
  refine evalSeq_cons_alike (by simp) (fun _ _ => ih.expr hneutral h) ?_ ha ha'
  intro l l' t t' items b b' hnot h hb hb'
  have hbreak : ∀ rest, l.rest ≠ '\n' :: rest := by
    intro rest hrest
    obtain ⟨r, hr, hagrees, -⟩ := reads_of_eval hnot
    cases hagrees with
    | matched _ hl =>
      obtain ⟨rfl, -, -, hunmatched⟩ := hr.of_not
      rw [← hl, hrest] at hunmatched
      by_cases hm : mark.toList <+: '\n' :: rest
      · obtain ⟨more, hm⟩ := hm
        rw [← hm] at hunmatched
        exact hunmatched _ _ _ (.choice_taken (.literal mark more) (by simp))
      · exact hunmatched _ _ _ (.choice_next (.literal_failed hm)
          (.choice_taken (reads_lineFeed hg rest) (by simp)))
  cases n with
  | zero => simp [evalSeq] at hb
  | succ n =>
    refine evalSeq_cons_alike (by simp) (fun _ _ => any_alike ht h hbreak) ?_ hb hb'
    intro _ _ _ _ _ d d' _ h hd hd'
    cases n with
    | zero => simp [evalSeq] at hd
    | succ n =>
      rw [evalSeq] at hd hd'
      cases hd
      cases hd'
      exact h.here

theorem seq_succ [LawfulBEq ι] (hg : g.LineNeutral newline names) (ht : '\r' ∉ text)
    (ih : AlikeAt g newline eol text names n) {es : List (Expr ι)} {c : Bool}
    (he : (Expr.isGuarded newline es || g.neutralAll newline names reads es) = true)
    (h : Abreast eol text names depth held k k' s s') (ha : evalSeq g (n + 1) es c k s = some a)
    (ha' : evalSeq g (n + 1) es c k' s' = some a') :
    Alike eol text names depth held reads a a' := by
  rcases Bool.or_eq_true_iff.1 he with hguard | hall
  · obtain ⟨mark, rfl, hmark⟩ := Expr.of_isGuarded hguard
    exact ih.guarded hg ht hmark h ha ha'
  · cases es with
    | nil =>
      rw [evalSeq] at ha ha'
      cases ha
      cases ha'
      exact h.here
    | cons e es =>
      obtain ⟨he, hes⟩ := Bool.and_eq_true_iff.1 hall
      have hes : (Expr.isGuarded newline es || g.neutralAll newline names reads es) = true :=
        Bool.or_eq_true_iff.2 (.inr hes)
      by_cases hc : e = .commit
      · subst hc
        rw [evalSeq] at ha ha'
        exact ih.seq hes h ha ha'
      · exact evalSeq_cons_alike hc (fun _ _ => ih.expr he h)
          (fun _ _ _ _ _ _ _ _ h => ih.seq hes h) ha ha'

theorem rule_succ (hg : g.LineNeutral newline names) (ht : '\r' ∉ text)
    (ih : AlikeAt g newline eol text names n) {id : ι}
    (hr : (!reads || (g.rule id).action.isSome) = true)
    (h : Abreast eol text names depth held k k' s s') (ha : evalRule g (n + 1) id k s = some a)
    (ha' : evalRule g (n + 1) id k' s' = some a') :
    Alike eol text names depth held reads a a' := by
  rw [evalRule] at ha ha'
  cases hact : (g.rule id).action with
  | none =>
    obtain rfl : reads = false := by simpa [hact] using hr
    simp only [hact, Option.map_eq_some_iff] at ha ha'
    obtain ⟨b, hb, rfl⟩ := ha
    obtain ⟨b', hb', rfl⟩ := ha'
    have hbody : Alike eol text names depth held false b b' := by
      by_cases hid : id = newline
      · subst hid
        obtain ⟨name, hrule⟩ := hg.lineEnd
        rw [hrule] at hb hb'
        exact lineEnd_alike ht (h.enter _) hb hb'
      · exact ih.expr (hg.body id hid) (h.enter _) hb hb'
    exact hbody.mapState (fun _ _ => .leave) (fun _ => rfl) fun _ => rfl
  | some action =>
    have hid : id ≠ newline := by
      rintro rfl
      obtain ⟨name, hrule⟩ := hg.lineEnd
      rw [hrule] at hact
      cases hact
    simp only [hact, Option.map_eq_some_iff] at ha ha'
    obtain ⟨b, hb, rfl⟩ := ha
    obtain ⟨b', hb', rfl⟩ := ha'
    have hbody : Alike eol text names depth held false b b' :=
      ih.expr (hg.body id hid) (h.enter _).openScope hb hb'
    have haround := hbody.mapState (fun _ _ ht => ht.closeScope.leave)
      State.furthest_closeScope State.furthest_closeScope
    cases hbody with
    | @matched l l' items items' t t' hl hi =>
      have hsame : action t.scope = action t'.scope := by
        rw [← hg.action id action hact t.scope, hl.state.scope, hg.action id action hact]
      dsimp only
      rw [← hsame]
      cases haround with
      | matched haround =>
        cases action t.scope with
        | ok nodes => exact .matched haround rfl
        | error error => exact .aborted (.single h.place _ _ _) (haround.state.reject _ _ _ _)
    | failed he ht hf =>
      cases haround with
      | failed he ht hf => exact .failed he ht hf
    | aborted he ht =>
      cases haround with
      | aborted he ht => exact .aborted he ht

end AlikeAt

theorem alikeAt [LawfulBEq ι] (hg : g.LineNeutral newline names) (ht : '\r' ∉ text) :
    ∀ n, AlikeAt g newline eol text names n
  | 0 => by constructor <;> simp [eval, evalSeq, evalChoice, evalMany, evalRule]
  | n + 1 =>
    have ih := alikeAt hg ht n
    { expr := ih.expr_succ ht
      seq := ih.seq_succ hg ht
      choice := ih.choice_succ
      many := ih.many_succ
      rule := ih.rule_succ hg ht }

/-! ## Whole texts -/

/-- What two texts are answered: the same nodes, the same rejection, or the same failure. -/
inductive Concurs (eol : LineEnd) (text : List Char) :
    Except (Refusal ε) (List ν) → Except (Refusal ε) (List ν) → Prop where
  | ok (nodes : List ν) : Concurs eol text (.ok nodes) (.ok nodes)
  | rejected (error : ε) :
      Concurs eol text (.error (.rejected error)) (.error (.rejected error))
  | malformed {e e' : Failure} (he : Failure.Beside eol text e e') :
      Concurs eol text (.error (.malformed e)) (.error (.malformed e'))

theorem conclude_alike (h : Alike eol text names 0 held false a a') :
    Concurs eol text (conclude a) (conclude a') := by
  have hrejection := h.state.rejection
  cases hr : a.2.rejection with
  | some error =>
    rw [conclude_rejected hr, conclude_rejected (hrejection ▸ hr)]
    exact .rejected error
  | none =>
    rw [hr] at hrejection
    cases h with
    | @matched l l' items items' t t' h hi =>
      have hsame := h.place.atEnd
      cases hend : l.atEnd with
      | true =>
        rw [conclude_matched hr hend, conclude_matched hrejection.symm (hsame ▸ hend),
          Item.nodes_of_seen hi]
        exact .ok _
      | false =>
        have he := Failure.Beside.single h.place t.path .endOfText "end of input"
        obtain ⟨-, hrel⟩ := h.record he rfl rfl
        rw [conclude_leftOver hr hend, conclude_leftOver hrejection.symm (hsame ▸ hend),
          ← h.state.path]
        exact .malformed (.join (hrel rfl) he)
    | failed he _ hf =>
      rw [conclude_failed hr, conclude_failed hrejection.symm]
      exact .malformed (.join (hf rfl) he)
    | aborted he =>
      rw [conclude_aborted hr, conclude_aborted hrejection.symm]
      exact .malformed he

theorem abreast_start (eol : LineEnd) (text : String) (names : List String) :
    Abreast eol text.toList names 0 (none, none) (.ofText text) (.ofText (eol.write text))
      (.start : State ν ε) .start where
  place := .start eol text
  state := ⟨rfl, fun _ => rfl, rfl, rfl, rfl, ⟨rfl, rfl⟩, fun _ => rfl⟩
  level _ := .inl .none

/-- Without left recursion, a text and what it is with other line ends are answered the same. -/
theorem run_concurs [LawfulBEq ι] (hl : g.NotLeftRecursive) (hg : g.LineNeutral newline names)
    (id : ι) (eol : LineEnd) {text : String} (ht : '\r' ∉ text.toList) :
    Concurs eol text.toList (g.run id text).result (g.run id (eol.write text)).result := by
  obtain ⟨n, a, ha⟩ := exists_eval hl (.rule id) (.ofText text) .start
  obtain ⟨m, a', ha'⟩ := exists_eval hl (.rule id) (.ofText (eol.write text)) .start
  rw [run_result_of_eval hl ha, run_result_of_eval hl ha']
  exact conclude_alike ((alikeAt hg ht (max n m)).expr rfl (abreast_start eol text names)
    (eval_mono (Nat.le_max_left n m) ha) (eval_mono (Nat.le_max_right n m) ha'))

end Fleet.Peg
