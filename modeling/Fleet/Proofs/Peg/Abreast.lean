import Fleet.Peg.Equations
import Fleet.Peg.LineNeutral
import Fleet.Text.LineEnd
import Mathlib.Data.Option.Basic
/-!
Two runs abreast: over a text and over what it is with other line ends. They are at the same place
and in states that look the same (`Abreast`), and so are their answers (`Alike`). Only what is noted
of failures may differ for a time. The run over line feeds notes a failure before it matches one
where a run over CR LF does not, so after a line end all that both owe each other is that what they
noted is behind them (`Level`): the next failure replaces it.
-/

namespace Fleet.Peg
open Fleet.Text

variable {ν ε : Type} {eol : LineEnd} {text : List Char} {names : List String} {depth : Nat}
  {held : Option Failure × Option Failure} {k k' l l' : Cursor}

/-! ## Failures -/

/-- The same failure at the same place. Only with CR LF is the place of its anchor called the
same. -/
structure Failure.Beside (eol : LineEnd) (text : List Char) (e e' : Failure) : Prop where
  path : e.path = e'.path
  cursor : Text.Beside eol text e.cursor e'.cursor
  kind : e.kind = e'.kind
  expected : e.expected = e'.expected
  anchor : eol = .crlf → e.anchor = e'.anchor

namespace Failure.Beside
variable {e e' f f' : Failure}

theorem single (h : Text.Beside eol text k k') (path : List String) (kind : Kind)
    (expected : String) :
    Failure.Beside eol text (.single path k kind expected) (.single path k' kind expected) :=
  ⟨rfl, h, rfl, rfl, fun _ => rfl⟩

theorem furthest (he : Failure.Beside eol text e e') (hf : Failure.Beside eol text f f') :
    Failure.Beside eol text (e.furthest f) (e'.furthest f') := by
  have hlt : e.offset < f.offset ↔ e'.offset < f'.offset := he.cursor.offset_lt hf.cursor
  have hgt : f.offset < e.offset ↔ f'.offset < e'.offset := hf.cursor.offset_lt he.cursor
  unfold Failure.furthest
  simp only [← hlt, ← hgt]
  split
  · exact hf
  · split
    · exact he
    · exact ⟨he.path, he.cursor, he.kind, by rw [he.expected, hf.expected], he.anchor⟩

theorem join {best best' : Option Failure} (hb : Option.Rel (Failure.Beside eol text) best best')
    (hf : Failure.Beside eol text f f') :
    Failure.Beside eol text (Failure.join best f) (Failure.join best' f') := by
  cases hb with
  | none => exact hf
  | some he => exact he.furthest hf

end Failure.Beside

/-- The furthest failures so far of two runs at `k` and `k'`: they are the same, or both runs have
gone past theirs. -/
def Level (eol : LineEnd) (text : List Char) (k k' : Cursor) (f f' : Option Failure) : Prop :=
  Option.Rel (Failure.Beside eol text) f f' ∨
    (∀ e ∈ f, e.offset < k.offset) ∧ ∀ e ∈ f', e.offset < k'.offset

/-- `g` is `f` with failures at `k` added. -/
structure Adds (k : Cursor) (f g : Option Failure) : Prop where
  ahead : ∀ e ∈ f, k.offset < e.offset → g = f
  reached : (∀ e ∈ f, e.offset ≤ k.offset) → ∀ e ∈ g, e.offset ≤ k.offset

namespace Adds
variable {f g : Option Failure} {e : Failure}

theorem refl (k : Cursor) (f : Option Failure) : Adds k f f := ⟨fun _ _ _ => rfl, id⟩

theorem join (h : Adds k f g) (he : e.cursor = k) : Adds k f (some (Failure.join g e)) where
  ahead x hx hlt := by
    obtain rfl := h.ahead x hx hlt
    subst he
    have hoff : e.offset < x.offset := hlt
    obtain rfl := Option.mem_def.1 hx
    simp [Failure.join, Failure.furthest, hoff, Nat.not_lt_of_gt hoff]
  reached hf x hx := by
    obtain rfl : Failure.join g e = x := by simpa using hx
    have hoff : e.offset = k.offset := congrArg Cursor.offset he
    cases hg : g with
    | none => exact Nat.le_of_eq hoff
    | some y =>
      have hy := h.reached hf y hg
      simp only [Failure.join, Failure.furthest]
      split
      · exact Nat.le_of_eq hoff
      · split <;> exact hy

end Adds

namespace Level
variable {f f' g g' : Option Failure} {e e' : Failure}

/-- A failure where the two runs are makes them the same. -/
theorem join (h : Level eol text k k' f f') (he : Failure.Beside eol text e e')
    (hk : e.cursor = k) (hk' : e'.cursor = k') :
    Failure.Beside eol text (Failure.join f e) (Failure.join f' e') := by
  rcases h with h | ⟨h, h'⟩
  · exact .join h he
  · subst hk hk'
    have hnew {f : Option Failure} {e : Failure} (h : ∀ x ∈ f, x.offset < e.cursor.offset) :
        Failure.join f e = e := by
      cases f with
      | none => rfl
      | some x => exact if_pos (h x rfl)
    rw [hnew h, hnew h']
    exact he

theorem mono (h : Level eol text k k' f f') (hk : k.offset ≤ l.offset)
    (hk' : k'.offset ≤ l'.offset) : Level eol text l l' f f' :=
  h.imp_right fun hb => ⟨fun e he => Nat.lt_of_lt_of_le (hb.1 e he) hk,
    fun e he => Nat.lt_of_lt_of_le (hb.2 e he) hk'⟩

/-- Failures at a place are left behind with it. -/
theorem past (h : Level eol text k k' f f') (hk : Beside eol text k k') (hg : Adds k f g)
    (hg' : Adds k' f' g') (hl : k.offset < l.offset) (hl' : k'.offset < l'.offset) :
    Level eol text l l' g g' := by
  have hreached (hf : ∀ e ∈ f, e.offset ≤ k.offset) (hf' : ∀ e ∈ f', e.offset ≤ k'.offset) :
      Level eol text l l' g g' :=
    .inr ⟨fun e he => Nat.lt_of_le_of_lt (hg.reached hf e he) hl,
      fun e he => Nat.lt_of_le_of_lt (hg'.reached hf' e he) hl'⟩
  rcases h with hrel | ⟨hb, hb'⟩
  · cases hrel with
    | none => exact hreached (by simp) (by simp)
    | @some e e' he =>
      have hiff : k.offset < e.offset ↔ k'.offset < e'.offset := hk.offset_lt he.cursor
      by_cases hlt : k.offset < e.offset
      · rw [hg.ahead e rfl hlt, hg'.ahead e' rfl (hiff.1 hlt)]
        exact .inl (.some he)
      · refine hreached ?_ ?_
        · simpa using hlt
        · simpa using mt hiff.2 hlt
  · exact hreached (fun e he => Nat.le_of_lt (hb e he)) fun e he => Nat.le_of_lt (hb' e he)

end Level

/-! ## States -/

/-- States that look the same at one depth of lookaheads, up to the failures noted. In a lookahead
none is noted: those `held` from before it stay. -/
structure State.Beside (eol : LineEnd) (names : List String) (depth : Nat)
    (held : Option Failure × Option Failure) (s s' : State ν ε) : Prop where
  frames : s.frames.map Frame.name = s'.frames.map Frame.name
  anchors : eol = .crlf → s.frames.map Frame.anchor = s'.frames.map Frame.anchor
  scope : s.scope.seen names = s'.scope.seen names
  outer : s.outer.map (Captures.seen names) = s'.outer.map (Captures.seen names)
  rejection : s.rejection = s'.rejection
  lookahead : s.lookahead = depth ∧ s'.lookahead = depth
  held : depth ≠ 0 → (s.furthest, s'.furthest) = held

namespace State.Beside
variable {s s' : State ν ε}

theorem path (h : s.Beside eol names depth held s') : s.path = s'.path := by
  rw [State.path, State.path, h.frames]

theorem mark (h : s.Beside eol names depth held s') : s.scope.mark = s'.scope.mark := by
  have hlen := congrArg (fun c => c.bindings.length) h.scope
  simpa [Captures.seen, Captures.mark] using hlen

theorem record_left (h : s.Beside eol names depth held s') (e : Failure) :
    (s.record e).Beside eol names depth held s' := by
  unfold State.record
  split
  · next h0 => exact { h with held := fun hd => absurd (h.lookahead.1.symm.trans h0) hd }
  · exact h

theorem record_right (h : s.Beside eol names depth held s') (e : Failure) :
    s.Beside eol names depth held (s'.record e) := by
  unfold State.record
  split
  · next h0 => exact { h with held := fun hd => absurd (h.lookahead.2.symm.trans h0) hd }
  · exact h

theorem resetScope (h : s.Beside eol names depth held s') (mark : Nat) :
    (s.resetScope mark).Beside eol names depth held (s'.resetScope mark) := by
  refine { h with scope := ?_ }
  have hb := congrArg (fun c => c.bindings.take mark) h.scope
  simpa [State.resetScope, Captures.reset, Captures.seen, List.map_take] using hb

theorem capture (h : s.Beside eol names depth held s') (name : String) {items items' : List (Item ν)}
    (hi : items.map (Item.seen (decide (name ∈ names))) =
      items'.map (Item.seen (decide (name ∈ names)))) :
    (s.capture name items).Beside eol names depth held (s'.capture name items') := by
  refine { h with scope := ?_ }
  have hb := congrArg Captures.bindings h.scope
  have hn := congrArg (List.map (name, ·)) hi
  simp only [Captures.seen, List.map_map, Function.comp_def] at hb hn
  simp only [State.capture, Captures.bindAll, Captures.seen, List.map_append, List.map_map,
    Function.comp_def, hb, hn]

/-- A lookahead holds the failures noted before it. -/
theorem lookAhead (h : s.Beside eol names depth held s') :
    s.lookAhead.Beside eol names (depth + 1) (s.furthest, s'.furthest) s'.lookAhead :=
  { h with
    lookahead := ⟨congrArg (· + 1) h.lookahead.1, congrArg (· + 1) h.lookahead.2⟩
    held := fun _ => rfl }

/-- After a lookahead the states are as they were before it, but for a pending rejection. -/
theorem lookBack {t t' : State ν ε} (h : s.Beside eol names depth held s')
    (ht : t.Beside eol names (depth + 1) (s.furthest, s'.furthest) t') (mark : Nat) :
    (t.lookBack mark).Beside eol names depth held (t'.lookBack mark) ∧
      (t.lookBack mark).furthest = s.furthest ∧ (t'.lookBack mark).furthest = s'.furthest := by
  obtain ⟨hf, hf'⟩ := Prod.mk.inj (ht.held (Nat.succ_ne_zero depth))
  refine ⟨{ ht.resetScope mark with lookahead := ?_, held := ?_ }, hf, hf'⟩
  · exact ⟨congrArg (· - 1) ht.lookahead.1, congrArg (· - 1) ht.lookahead.2⟩
  · intro hd
    show (t.furthest, t'.furthest) = held
    rw [hf, hf']
    exact h.held hd

theorem clearRejection (h : s.Beside eol names depth held s') :
    s.clearRejection.Beside eol names depth held s'.clearRejection :=
  { h with rejection := rfl }

theorem enter (h : s.Beside eol names depth held s') (hk : Text.Beside eol text k k')
    (name : String) :
    (s.enter name k.pos).Beside eol names depth held (s'.enter name k'.pos) := by
  refine { h with frames := ?_, anchors := ?_ }
  · simp [State.enter, h.frames]
  · intro heol
    subst heol
    simp [State.enter, h.anchors rfl, Frame.anchor, hk.line_column]

theorem leave (h : s.Beside eol names depth held s') :
    s.leave.Beside eol names depth held s'.leave := by
  refine { h with frames := ?_, anchors := fun heol => ?_ }
  · simp [State.leave, List.map_tail, h.frames]
  · simp [State.leave, List.map_tail, h.anchors heol]

theorem openScope (h : s.Beside eol names depth held s') :
    s.openScope.Beside eol names depth held s'.openScope :=
  { h with
    scope := rfl
    outer := by simp [State.openScope, h.scope, h.outer] }

theorem closeScope (h : s.Beside eol names depth held s') :
    s.closeScope.Beside eol names depth held s'.closeScope := by
  have ho := h.outer
  unfold State.closeScope
  cases hs : s.outer with
  | nil =>
    have hs' : s'.outer = [] := by simpa [hs] using ho.symm
    rw [hs']
    exact h
  | cons c outer =>
    obtain ⟨c', outer', hs', hc, houter⟩ :
        ∃ c' outer', s'.outer = c' :: outer' ∧ c'.seen names = c.seen names ∧
          outer'.map (Captures.seen names) = outer.map (Captures.seen names) := by
      rw [hs, List.map_cons] at ho
      exact List.map_eq_cons_iff.1 ho.symm
    rw [hs']
    exact { h with scope := hc.symm, outer := houter.symm }

theorem reject (h : s.Beside eol names depth held s') (rule : String) (line line' : Nat)
    (error : ε) :
    (s.reject rule line error).Beside eol names depth held (s'.reject rule line' error) :=
  { h with rejection := rfl }

theorem anchored {e e' : Failure} (h : s.Beside eol names depth held s')
    (he : Failure.Beside eol text e e') :
    Failure.Beside eol text (s.anchored e) (s'.anchored e') := by
  rw [anchored_eq, anchored_eq]
  refine { he with anchor := fun heol => ?_ }
  have hframes := congrArg List.head? (h.anchors heol)
  simp only [List.head?_map] at hframes
  simp only [he.anchor heol, hframes]

end State.Beside

/-! ## Answers -/

/-- Two runs at the same place, in states that look the same. -/
structure Abreast (eol : LineEnd) (text : List Char) (names : List String) (depth : Nat)
    (held : Option Failure × Option Failure) (k k' : Cursor) (s s' : State ν ε) : Prop where
  place : Beside eol text k k'
  state : s.Beside eol names depth held s'
  level : depth = 0 → Level eol text k k' s.furthest s'.furthest

/-- The same answer: a match to the same place of items that look the same, or the same failure.
After a failure what was noted is the same, too; after an abort it plays no part. -/
inductive Alike (eol : LineEnd) (text : List Char) (names : List String) (depth : Nat)
    (held : Option Failure × Option Failure) (reads : Bool) :
    Outcome ν × State ν ε → Outcome ν × State ν ε → Prop where
  | matched {l l' : Cursor} {items items' : List (Item ν)} {t t' : State ν ε}
      (h : Abreast eol text names depth held l l' t t')
      (hi : items.map (Item.seen reads) = items'.map (Item.seen reads)) :
      Alike eol text names depth held reads (.matched l items, t) (.matched l' items', t')
  | failed {e e' : Failure} {t t' : State ν ε} (he : Failure.Beside eol text e e')
      (ht : t.Beside eol names depth held t')
      (hf : depth = 0 → Option.Rel (Failure.Beside eol text) t.furthest t'.furthest) :
      Alike eol text names depth held reads (.failed e, t) (.failed e', t')
  | aborted {e e' : Failure} {t t' : State ν ε} (he : Failure.Beside eol text e e')
      (ht : t.Beside eol names depth held t') :
      Alike eol text names depth held reads (.aborted e, t) (.aborted e', t')

namespace Abreast
variable {s s' : State ν ε} {reads : Bool}

/-- Both runs go on to a place further on. -/
theorem go (h : Abreast eol text names depth held k k' s s') (hl : Beside eol text l l')
    (hk : k.offset ≤ l.offset) : Abreast eol text names depth held l l' s s' where
  place := hl
  state := h.state
  level h0 := by
    refine (h.level h0).mono hk (Nat.not_lt.1 ?_)
    rw [← hl.offset_lt h.place]
    exact Nat.not_lt.2 hk

theorem here (h : Abreast eol text names depth held k k' s s') :
    Alike eol text names depth held reads (.matched k [], s) (.matched k' [], s') :=
  .matched h rfl

/-- After a failure where the two runs are, what they noted is the same. -/
theorem record (h : Abreast eol text names depth held k k' s s') {e e' : Failure}
    (he : Failure.Beside eol text e e') (hk : e.cursor = k) (hk' : e'.cursor = k') :
    Abreast eol text names depth held k k' (s.record e) (s'.record e') ∧
      (depth = 0 → Option.Rel (Failure.Beside eol text) (s.record e).furthest
        (s'.record e').furthest) := by
  have hrel (h0 : depth = 0) : Option.Rel (Failure.Beside eol text) (s.record e).furthest
      (s'.record e').furthest := by
    subst h0
    unfold State.record
    rw [if_pos h.state.lookahead.1, if_pos h.state.lookahead.2]
    exact .some ((h.level rfl).join he hk hk')
  exact ⟨⟨h.place, (h.state.record_left e).record_right e', fun h0 => .inl (hrel h0)⟩, hrel⟩

theorem fail (h : Abreast eol text names depth held k k' s s') (kind : Failure.Kind)
    (expected : String) :
    Alike eol text names depth held reads (s.fail k kind expected) (s'.fail k' kind expected) := by
  have he := Failure.Beside.single h.place s.path kind expected
  obtain ⟨hs, hrel⟩ := h.record he rfl rfl
  unfold State.fail
  rw [← h.state.path]
  exact .failed he hs.state hrel

/-- Both runs enter a rule. -/
theorem enter (h : Abreast eol text names depth held k k' s s') (name : String) :
    Abreast eol text names depth held k k' (s.enter name k.pos) (s'.enter name k'.pos) :=
  { h with state := h.state.enter h.place name }

theorem openScope (h : Abreast eol text names depth held k k' s s') :
    Abreast eol text names depth held k k' s.openScope s'.openScope :=
  { h with state := h.state.openScope }

/-- In a lookahead there is nothing to keep level. -/
theorem lookAhead (h : Abreast eol text names depth held k k' s s') :
    Abreast eol text names (depth + 1) (s.furthest, s'.furthest) k k' s.lookAhead s'.lookAhead where
  place := h.place
  state := h.state.lookAhead
  level h0 := absurd h0 (Nat.succ_ne_zero depth)

/-- Both runs leave a lookahead. -/
theorem lookBack {t t' : State ν ε} (h : Abreast eol text names depth held k k' s s')
    (ht : t.Beside eol names (depth + 1) (s.furthest, s'.furthest) t') (mark : Nat) :
    Abreast eol text names depth held k k' (t.lookBack mark) (t'.lookBack mark) := by
  obtain ⟨hstate, hf, hf'⟩ := h.state.lookBack ht mark
  refine ⟨h.place, hstate, fun h0 => ?_⟩
  rw [hf, hf']
  exact h.level h0

end Abreast

namespace Alike
variable {reads reads' : Bool} {a a' : Outcome ν × State ν ε}

/-- The runs that gave the answers are in states that look the same. -/
theorem state (h : Alike eol text names depth held reads a a') :
    a.2.Beside eol names depth held a'.2 := by
  cases h with
  | matched h => exact h.state
  | failed _ ht | aborted _ ht => exact ht

theorem isMatch (h : Alike eol text names depth held reads a a') :
    a.1.isMatch = a'.1.isMatch := by
  cases h <;> rfl

/-- A look at less. -/
theorem imp (h : Alike eol text names depth held reads a a') (hr : reads' = true → reads = true) :
    Alike eol text names depth held reads' a a' := by
  cases h with
  | failed he ht hf => exact .failed he ht hf
  | aborted he ht => exact .aborted he ht
  | @matched _ _ items items' _ _ h hi =>
    refine .matched h ?_
    cases reads' with
    | true =>
      rw [hr rfl] at hi
      exact hi
    | false =>
      have hseen := congrArg (List.map (Item.seen false)) hi
      simpa [Function.comp_def, Item.seen_seen] using hseen

/-- What is done to both states alike, and not to what is noted of failures. -/
theorem mapState {f f' : State ν ε → State ν ε} (h : Alike eol text names depth held reads a a')
    (hf : ∀ t t' : State ν ε, t.Beside eol names depth held t' →
      (f t).Beside eol names depth held (f' t'))
    (hs : ∀ t, (f t).furthest = t.furthest) (hs' : ∀ t, (f' t).furthest = t.furthest) :
    Alike eol text names depth held reads (a.1, f a.2) (a'.1, f' a'.2) := by
  cases h with
  | matched h hi =>
    refine .matched ⟨h.place, hf _ _ h.state, fun h0 => ?_⟩ hi
    rw [hs, hs']
    exact h.level h0
  | failed he ht hrel =>
    refine .failed he (hf _ _ ht) fun h0 => ?_
    rw [hs, hs']
    exact hrel h0
  | aborted he ht => exact .aborted he (hf _ _ ht)

theorem unwind (h : Alike eol text names depth held reads a a') (mark : Nat) :
    Alike eol text names depth held reads (State.unwind mark a) (State.unwind mark a') := by
  cases h with
  | matched h hi => exact .matched h hi
  | failed he ht hf => exact .failed he (ht.resetScope mark) hf
  | aborted he ht => exact .aborted he (ht.resetScope mark)

theorem after {items items' : List (Item ν)} (h : Alike eol text names depth held reads a a')
    (hi : items.map (Item.seen reads) = items'.map (Item.seen reads)) :
    Alike eol text names depth held reads (a.1.after items, a.2) (a'.1.after items', a'.2) := by
  cases h with
  | matched h hmore =>
    exact .matched h (by rw [List.map_append, List.map_append, hi, hmore])
  | failed he ht hf => exact .failed he ht hf
  | aborted he ht => exact .aborted he ht

end Alike

end Fleet.Peg
