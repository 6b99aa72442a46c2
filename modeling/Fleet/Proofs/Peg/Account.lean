import Fleet.Peg.Trace
import Fleet.Proofs.Peg.Furthest
import Fleet.Proofs.Peg.Soundness
/-!
What a trace tells of the answer (`Accounts`): whether there was a match, a failure, a refusal by an
action or a failure behind a commit, and what is noted on the way, the furthest failure and the
refusals. The lemmas say how accounts of parts are put together, and how the last thing that
happened and the answer tell of each other.
-/

namespace Fleet.Peg
open Fleet.Text

variable {ι ν ε : Type}

namespace Failure

/-- A failure that came of a match begun at `k`, in the rules `within`. -/
structure Arises (within : List Frame) (k : Cursor) (f : Failure) : Prop where
  unanchored : f.anchor = none
  path : pathOf within <+: f.path
  cursor : k.Reaches f.cursor

/-- The failure as it is told where the innermost of the rules is committed. -/
def anchoredIn (within : List Frame) (f : Failure) : Failure :=
  { f with anchor := within.head?.map Frame.anchor }

/-- One failure after the other is noted. -/
def noteAll (noted : Option Failure) (fs : List Failure) : Option Failure :=
  fs.foldl (fun e f => some (join e f)) noted

namespace Arises
variable {within : List Frame} {k l : Cursor} {e f : Failure}

theorem single (within : List Frame) (k : Cursor) (kind : Kind) (expected : String) :
    Arises within k (.single (pathOf within) k kind expected) :=
  ⟨rfl, List.prefix_rfl, .refl k⟩

theorem furthest (he : e.Arises within k) (hf : f.Arises within k) :
    (e.furthest f).Arises within k := by
  unfold Failure.furthest
  split
  · exact hf
  · split
    · exact he
    · exact ⟨he.unanchored, he.path, he.cursor⟩

theorem join {best : Option Failure} (hb : ∀ e ∈ best, Arises within k e)
    (hf : f.Arises within k) : (Failure.join best f).Arises within k := by
  cases best with
  | none => exact hf
  | some e => exact (hb e rfl).furthest hf

theorem go (hf : f.Arises within l) (hk : k.Reaches l) : f.Arises within k :=
  ⟨hf.unanchored, hf.path, hk.trans hf.cursor⟩

theorem outer {frame : Frame} (hf : f.Arises (frame :: within) k) : f.Arises within k := by
  refine ⟨hf.unanchored, .trans ?_ hf.path, hf.cursor⟩
  exact ⟨[frame.name], by simp [pathOf]⟩

end Arises

end Failure

theorem State.anchored_arises {s : State ν ε} {f : Failure} {within : List Frame} {k : Cursor}
    (hs : s.frames = within) (hf : f.Arises within k) : s.anchored f = f.anchoredIn within := by
  rw [State.anchored_eq, hf.unanchored, hs]
  rfl

/-- The innermost rule began at a place from which `k` was reached. -/
def Began (within : List Frame) (k : Cursor) : Prop :=
  ∀ frame ∈ within.head?, ∃ j : Cursor, j.pos = frame.start ∧ j.Reaches k

theorem Began.go {within : List Frame} {k l : Cursor} (h : Began within k) (hk : k.Reaches l) :
    Began within l := by
  intro frame hframe
  obtain ⟨j, hj, hreach⟩ := h frame hframe
  exact ⟨j, hj, hreach.trans hk⟩

theorem began_cons (name : String) (within : List Frame) (k : Cursor) :
    Began (⟨name, k.pos⟩ :: within) k := by
  intro frame hframe
  cases hframe
  exact ⟨k, rfl, .refl k⟩

/-- States in which the same is noted. -/
structure State.SameNotes (s t : State ν ε) : Prop where
  lookahead : t.lookahead = s.lookahead
  furthest : t.furthest = s.furthest
  rejection : t.rejection = s.rejection
  rejections : t.rejections = s.rejections

theorem State.sameNotes_closeScope (s : State ν ε) : s.SameNotes s.closeScope.leave := by
  unfold closeScope
  split <;> exact ⟨rfl, rfl, rfl, rfl⟩

/-- The furthest failure to be noted after a trace. -/
def State.noted (s : State ν ε) (tr : Trace ι ν ε) : Option Failure :=
  if s.lookahead = 0 then Failure.noteAll s.furthest tr.misses else s.furthest

theorem State.noted_of_misses {s : State ν ε} {tr : Trace ι ν ε} (h : tr.misses = []) :
    s.noted tr = s.furthest := by
  simp [State.noted, h, Failure.noteAll]

/-- What is noted between two states is what happened. -/
structure Records (g : Grammar ι ν ε) (s : State ν ε) (tr : Trace ι ν ε) (t : State ν ε) :
    Prop where
  lookahead : t.lookahead = s.lookahead
  furthest : t.furthest = s.noted tr
  rejections : t.rejections = (tr.refusals g).reverse ++ s.rejections

namespace Records
variable {g : Grammar ι ν ε} {s s' t t' u : State ν ε} {tr tr' : Trace ι ν ε}

theorem refl (g : Grammar ι ν ε) (s : State ν ε) : Records g s ([] : Trace ι ν ε) s :=
  ⟨rfl, (State.noted_of_misses rfl).symm, rfl⟩

theorem append (h : Records g s tr t) (h' : Records g t tr' u) : Records g s (tr ++ tr') u where
  lookahead := h'.lookahead.trans h.lookahead
  furthest := by
    have hf := h'.furthest
    rw [State.noted, h.lookahead, h.furthest] at hf
    rw [hf]
    unfold State.noted
    split <;> simp [Failure.noteAll]
  rejections := by simp [h'.rejections, h.rejections]

theorem congr (h : Records g s tr t) (hs : s.SameNotes s') (ht : t.SameNotes t') :
    Records g s' tr t' where
  lookahead := by rw [ht.lookahead, h.lookahead, hs.lookahead]
  furthest := by rw [ht.furthest, h.furthest, State.noted, State.noted, hs.lookahead, hs.furthest]
  rejections := by rw [ht.rejections, h.rejections, hs.rejections]

/-- Neither a failure nor a refusal is noted where there is none. -/
theorem of_nothing {x : Happening ι ν ε} (hm : x.missed? = none) (hr : x.refused? g = none)
    (s : State ν ε) : Records g s [(0, x)] s := by
  refine ⟨rfl, (State.noted_of_misses ?_).symm, ?_⟩
  · simp [Trace.misses, hm]
  · simp [Trace.refusals, hr]

/-- A failure is noted outside lookaheads only. -/
theorem fail (g : Grammar ι ν ε) (s : State ν ε) (k : Cursor) (kind : Failure.Kind)
    (expected : String) :
    Records g s [(0, .missed s.frames k kind expected)] (s.fail k kind expected).2 := by
  have hmisses : Trace.misses [(0, (.missed s.frames k kind expected : Happening ι ν ε))] =
      [.single s.path k kind expected] := rfl
  refine ⟨?_, ?_, ?_⟩ <;> unfold State.fail State.record
  · split <;> rfl
  · unfold State.noted
    rw [hmisses]
    split <;> rfl
  · split <;> rfl

theorem reject (g : Grammar ι ν ε) (s : State ν ε) (i : ι) (k : Cursor) (error : ε) :
    Records g s [(0, .acted i k (.error error))] (s.reject (g.rule i).name k.pos.line error) :=
  ⟨rfl, (State.noted_of_misses rfl).symm, rfl⟩

/-- Of a lookahead only the refusals are noted. -/
theorem deeper (h : Records g s.lookAhead tr t) (mark : Nat) :
    Records g s tr.deeper (t.lookBack mark) where
  lookahead := by simp [State.lookBack, h.lookahead, State.lookAhead]
  furthest := by
    have hf := h.furthest
    simp only [State.noted, State.lookAhead, Nat.succ_ne_zero, if_false] at hf
    rw [State.noted_of_misses (Trace.misses_deeper tr)]
    exact hf
  rejections := by
    rw [Trace.refusals_deeper]
    exact h.rejections

end Records

/-- How a trace ends with an answer. Nothing is pending but what an action has refused, and nothing
is told of what lies before `k`. -/
inductive Ending (within : List Frame) (k : Cursor) (s : State ν ε) :
    Trace ι ν ε → Outcome ν × State ν ε → Prop where
  | matched {tr : Trace ι ν ε} {l : Cursor} {items : List (Item ν)} {t : State ν ε}
      (hq : tr.Quiet) (hr : s.rejection = none → t.rejection = none) (hk : k.Reaches l) :
      Ending within k s tr (.matched l items, t)
  | failed {tr : Trace ι ν ε} {f : Failure} {t : State ν ε}
      (hq : tr.Quiet) (hr : s.rejection = none → t.rejection = none) (hf : f.Arises within k) :
      Ending within k s tr (.failed f, t)
  | rejected {before : Trace ι ν ε} {id : ι} {j : Cursor} {error : ε} {e : Failure}
      {t : State ν ε} (hq : before.Quiet) (hr : t.rejection = some error)
      (hk : k.Reaches e.cursor) :
      Ending within k s (before ++ [(0, .acted id j (.error error))]) (.aborted e, t)
  | cut {before : Trace ι ν ε} {inner : List Frame} {j : Cursor} {f : Failure} {t : State ν ε}
      (hq : before.Quiet) (hr : s.rejection = none → t.rejection = none)
      (hw : within <:+ inner) (hj : Began within k → Began inner j) (hf : f.Arises inner j)
      (hk : k.Reaches j) :
      Ending within k s (before ++ [(0, .cut inner f)]) (.aborted (f.anchoredIn inner), t)

structure Accounts (g : Grammar ι ν ε) (within : List Frame) (k : Cursor) (s : State ν ε)
    (tr : Trace ι ν ε) (a : Outcome ν × State ν ε) : Prop where
  ending : Ending within k s tr a
  records : Records g s tr a.2

/-! ## Putting accounts together -/

section Parts
variable {g : Grammar ι ν ε} {within : List Frame} {k l : Cursor} {s s' t t' : State ν ε}
  {tr tr' : Trace ι ν ε} {a : Outcome ν × State ν ε} {o : Outcome ν} {first items : List (Item ν)}

/-- What went before without an end. -/
theorem Ending.prepend (hq : tr.Quiet) (hr : s.rejection = none → t.rejection = none)
    (hk : k.Reaches l) (h : Ending within l t tr' a) :
    Ending within k s (tr ++ tr') (a.1.after first, a.2) := by
  cases h with
  | matched hq' hr' hl => exact .matched (hq.append hq') (fun h => hr' (hr h)) (hk.trans hl)
  | failed hq' hr' hf => exact .failed (hq.append hq') (fun h => hr' (hr h)) (hf.go hk)
  | rejected hq' hr' he =>
    rw [← List.append_assoc]
    exact .rejected (hq.append hq') hr' (hk.trans he)
  | cut hq' hr' hw hj hf hl =>
    rw [← List.append_assoc]
    exact .cut (hq.append hq') (fun h => hr' (hr h)) hw (fun h => hj (h.go hk)) hf (hk.trans hl)

theorem Outcome.after_nil (o : Outcome ν) : o.after [] = o := by
  cases o <;> rfl

namespace Accounts

theorem of_matched (h : Accounts g within k s tr (.matched l items, t)) :
    tr.Quiet ∧ (s.rejection = none → t.rejection = none) ∧ k.Reaches l ∧ Records g s tr t := by
  obtain ⟨hending, ht⟩ := h
  cases hending with
  | matched hq hr hk => exact ⟨hq, hr, hk, ht⟩

theorem of_failed {f : Failure} (h : Accounts g within k s tr (.failed f, t)) :
    tr.Quiet ∧ (s.rejection = none → t.rejection = none) ∧ f.Arises within k ∧
      Records g s tr t := by
  obtain ⟨hending, ht⟩ := h
  cases hending with
  | failed hq hr hf => exact ⟨hq, hr, hf, ht⟩

theorem prepend (hq : tr.Quiet) (hr : s.rejection = none → t.rejection = none)
    (hk : k.Reaches l) (ht : Records g s tr t) (h : Accounts g within l t tr' a) :
    Accounts g within k s (tr ++ tr') (a.1.after first, a.2) :=
  ⟨h.ending.prepend hq hr hk, ht.append h.records⟩

/-- What went before without a match. -/
theorem follow (hq : tr.Quiet) (ht : Records g s tr t)
    (hr : s.rejection = none → t.rejection = none) (h : Accounts g within k t tr' a) :
    Accounts g within k s (tr ++ tr') a := by
  have h' : Accounts g within k s (tr ++ tr') (a.1.after [], a.2) := h.prepend hq hr (.refl k) ht
  rwa [Outcome.after_nil] at h'

/-- What comes after a match. -/
theorem after (h : Accounts g within k s tr (.matched l items, t))
    (h' : Accounts g within l t tr' a) :
    Accounts g within k s (tr ++ tr') (a.1.after first, a.2) := by
  obtain ⟨hq, hr, hk, ht⟩ := h.of_matched
  exact h'.prepend hq hr hk ht

/-- What comes after a failure, at the place where this began. -/
theorem resume {f : Failure} (h : Accounts g within k s tr (.failed f, t))
    (h' : Accounts g within k t tr' a) : Accounts g within k s (tr ++ tr') a := by
  obtain ⟨hq, hr, -, ht⟩ := h.of_failed
  exact h'.follow hq ht hr

/-- An expression is tried before anything else happens to it. -/
theorem tried (e : Expr ι) (h : Accounts g within k s tr a) :
    Accounts g within k s ((0, .tried e k) :: tr) a :=
  h.follow (Trace.quiet_singleton rfl) (.of_nothing rfl rfl s) id

/-- What is done to the states apart from what they tell of failures and refusals. -/
theorem congr (h : Accounts g within k s tr (o, t)) (hs : s.SameNotes s') (ht : t.SameNotes t') :
    Accounts g within k s' tr (o, t') := by
  obtain ⟨hending, hrecords⟩ := h
  have hnone (h : s.rejection = none → t.rejection = none) :
      s'.rejection = none → t'.rejection = none := by
    rwa [hs.rejection, ht.rejection]
  refine ⟨?_, hrecords.congr hs ht⟩
  cases hending with
  | matched hq h hk => exact .matched hq (hnone h) hk
  | failed hq h hf => exact .failed hq (hnone h) hf
  | rejected hq h he => exact .rejected hq (ht.rejection.trans h) he
  | cut hq h hw hj hf hl => exact .cut hq (hnone h) hw hj hf hl

/-- A rule and its scope are left. -/
theorem leave {name : String} {p : Position}
    (h : Accounts g within k (s.enter name p) tr (o, t)) : Accounts g within k s tr (o, t.leave) :=
  h.congr ⟨rfl, rfl, rfl, rfl⟩ ⟨rfl, rfl, rfl, rfl⟩

theorem closeScope {name : String} {p : Position}
    (h : Accounts g within k (s.enter name p).openScope tr (o, t)) :
    Accounts g within k s tr (o, t.closeScope.leave) :=
  h.congr ⟨rfl, rfl, rfl, rfl⟩ t.sameNotes_closeScope

theorem outer {frame : Frame} (hk : Began (frame :: within) k)
    (h : Accounts g (frame :: within) k s tr a) : Accounts g within k s tr a := by
  obtain ⟨hending, ht⟩ := h
  refine ⟨?_, ht⟩
  cases hending with
  | matched hq hr hl => exact .matched hq hr hl
  | failed hq hr hf => exact .failed hq hr hf.outer
  | rejected hq hr he => exact .rejected hq hr he
  | cut hq hr hw hj hf hl =>
    exact .cut hq hr ((List.suffix_cons _ _).trans hw) (fun _ => hj hk) hf hl

theorem unwind (h : Accounts g within k s tr a) (mark : Nat) :
    Accounts g within k s tr (State.unwind mark a) := by
  obtain ⟨o, t⟩ := a
  cases o with
  | matched => exact h
  | failed | aborted => exact h.congr ⟨rfl, rfl, rfl, rfl⟩ ⟨rfl, rfl, rfl, rfl⟩

theorem matched (hk : k.Reaches l) (items : List (Item ν)) :
    Accounts g within k s [] (.matched l items, s) :=
  ⟨.matched Trace.quiet_nil id hk, .refl g s⟩

/-- A failure of one of the expressions that note theirs. -/
theorem fail (hs : s.frames = within) (k : Cursor) (kind : Failure.Kind) (expected : String) :
    Accounts g within k s [(0, .missed within k kind expected)] (s.fail k kind expected) := by
  subst hs
  have hrej : (s.fail k kind expected).2.rejection = s.rejection := s.rejection_record _
  exact ⟨.failed (Trace.quiet_singleton rfl) hrej.trans (.single s.frames ..), .fail g s k kind _⟩

end Accounts

end Parts

/-! ## The end of a trace -/

section Ends
variable {within inner : List Frame} {k j : Cursor} {s t : State ν ε} {tr before : Trace ι ν ε}
  {o : Outcome ν} {a : Outcome ν × State ν ε} {x y : Happening ι ν ε} {f : Failure} {error : ε}

theorem Trace.Quiet.eq_last (hq : before.Quiet) (hy : y ∈ Trace.outside (before ++ [(0, x)]))
    (hfinal : y.isFinal = true) : y = x := by
  rw [Trace.outside_append, List.mem_append] at hy
  rcases hy with hy | hy
  · rw [hq y hy] at hfinal
    cases hfinal
  · simpa using hy

theorem Trace.Quiet.not_mem (hq : tr.Quiet) (hfinal : x.isFinal = true) : x ∉ tr.outside := by
  intro hx
  rw [hq x hx] at hfinal
  cases hfinal

namespace Ending

/-- Nothing happens after what is final. -/
theorem final_last (h : Ending within k s tr a) (hx : x ∈ tr.outside) (hfinal : x.isFinal = true) :
    ∃ before : Trace ι ν ε, tr = before ++ [(0, x)] ∧ Trace.Quiet before := by
  cases h with
  | matched hq | failed hq => exact absurd hx (hq.not_mem hfinal)
  | rejected hq | cut hq =>
    obtain rfl := hq.eq_last hx hfinal
    exact ⟨_, rfl, hq⟩

/-- What is pending is what an action has refused outside lookaheads. -/
theorem rejection_iff (h : Ending within k s tr (o, t)) (hs : s.rejection = none) :
    t.rejection = some error ↔ ∃ i j, .acted i j (.error error) ∈ tr.outside := by
  have hnone (hq : tr.Quiet) (ht : t.rejection = none) :
      t.rejection = some error ↔ ∃ i j, .acted i j (.error error) ∈ tr.outside := by
    refine iff_of_false (by simp [ht]) ?_
    intro hp
    obtain ⟨i, j, hmem⟩ := hp
    exact hq.not_mem rfl hmem
  cases h with
  | matched hq hr | failed hq hr => exact hnone hq (hr hs)
  | @rejected before i j refused _ _ hq hr =>
    rw [hr]
    constructor
    · intro he
      cases he
      exact ⟨i, j, by simp⟩
    · intro hp
      obtain ⟨i', j', hmem⟩ := hp
      cases hq.eq_last hmem rfl
      rfl
  | @cut before inner j f _ hq hr =>
    refine iff_of_false (by simp [hr hs]) ?_
    intro hp
    obtain ⟨i', j', hmem⟩ := hp
    cases hq.eq_last hmem rfl

/-- A failure behind a commit is told as it happened, but that it is anchored. -/
theorem of_cut (h : Ending within k s tr (o, t)) (hmem : .cut inner f ∈ tr.outside) :
    o = .aborted (f.anchoredIn inner) ∧ (s.rejection = none → t.rejection = none) ∧
      within <:+ inner ∧ ∃ j, (Began within k → Began inner j) ∧ f.Arises inner j := by
  cases h with
  | matched hq | failed hq => exact absurd hmem (hq.not_mem rfl)
  | rejected hq => cases hq.eq_last hmem rfl
  | cut hq hr hw hj hf =>
    cases hq.eq_last hmem rfl
    exact ⟨rfl, hr, hw, _, hj, hf⟩

end Ending

end Ends

/-! ## What is noted -/

namespace Failure
variable {e f m : Failure} {fs : List Failure} {noted : Option Failure}

theorem unanchored_join (he : ∀ e ∈ noted, e.anchor = none) (hf : f.anchor = none) :
    (join noted f).anchor = none := by
  cases noted with
  | none => exact hf
  | some e =>
    have he := he e rfl
    simp only [join, furthest]
    split
    · exact hf
    · split <;> exact he

theorem unanchored_record {s : State ν ε} (hs : ∀ e ∈ s.furthest, e.anchor = none)
    (hf : f.anchor = none) : ∀ e ∈ (s.record f).furthest, e.anchor = none := by
  unfold State.record
  split
  · intro e he
    cases he
    exact unanchored_join hs hf
  · exact hs

theorem unanchored_noteAll (he : ∀ e ∈ noted, e.anchor = none) (hfs : ∀ f ∈ fs, f.anchor = none) :
    ∀ m ∈ noteAll noted fs, m.anchor = none := by
  induction fs generalizing noted with
  | nil => exact he
  | cons f fs ih =>
    refine ih ?_ fun x hx => hfs x (by simp [hx])
    intro m hm
    cases hm
    exact unanchored_join he (hfs f (by simp))

theorem noteAll_some (e : Failure) (fs : List Failure) :
    noteAll (some e) fs = some (fs.foldl furthest e) := by
  induction fs generalizing e with
  | nil => rfl
  | cons f fs ih => exact ih _

/-- The furthest noted sums up all. -/
theorem sums_noteAll (hfs : ∀ f ∈ fs, f.expected.Nodup) (hm : m ∈ noteAll none fs) :
    Sums fs m := by
  cases fs with
  | nil => cases hm
  | cons f fs =>
    have hall : noteAll none (f :: fs) = some (fs.foldl furthest f) := noteAll_some f fs
    rw [hall] at hm
    cases hm
    exact sums_foldl (hfs f (by simp)) fun x hx => hfs x (by simp [hx])

end Failure

namespace Trace
variable {tr : Trace ι ν ε} {f : Failure}

/-- Each of the failures outside lookaheads is that of one expression. -/
theorem exists_of_mem_misses (h : f ∈ tr.misses) :
    ∃ within k kind expected, f = .single (pathOf within) k kind expected := by
  obtain ⟨x, -, hx⟩ := List.mem_filterMap.1 h
  cases x with
  | missed within k kind expected =>
    cases hx
    exact ⟨within, k, kind, expected, rfl⟩
  | tried | acted | cut => cases hx

theorem unanchored_of_mem_misses (h : f ∈ tr.misses) : f.anchor = none := by
  obtain ⟨within, k, kind, expected, rfl⟩ := exists_of_mem_misses h
  rfl

theorem nodup_of_mem_misses (h : f ∈ tr.misses) : f.expected.Nodup := by
  obtain ⟨within, k, kind, expected, rfl⟩ := exists_of_mem_misses h
  simp [Failure.single]

end Trace

end Fleet.Peg
