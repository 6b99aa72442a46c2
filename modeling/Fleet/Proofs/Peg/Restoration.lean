import Fleet.Proofs.Peg.Tracing
import Fleet.Text.LineEnd
/-!
What evaluation leaves as it found it. However it ends, the rules being matched, the scopes around
and the depth of lookaheads are those from before, and what it notes and tells lies ahead of the
place where it began (`restores_of_eval`).
-/

namespace Fleet.Peg
open Fleet.Text

variable {ι ν ε : Type}

/-- The place that an answer is about: where a match leaves off, or where something failed. -/
def Outcome.cursor : Outcome ν → Cursor
  | .matched rest _ => rest
  | .failed e | .aborted e => e.cursor

theorem Ending.reaches {within : List Frame} {k : Cursor} {s t : State ν ε} {tr : Trace ι ν ε}
    {o : Outcome ν} (h : Ending within k s tr (o, t)) : k.Reaches o.cursor := by
  cases h with
  | matched _ _ hk => exact hk
  | failed _ _ hf => exact hf.cursor
  | rejected _ _ hk => exact hk
  | cut _ _ _ _ hf hk => exact hk.trans hf.cursor

namespace Failure

theorem le_offset_foldl (e : Failure) (fs : List Failure) :
    e.offset ≤ (fs.foldl furthest e).offset := by
  induction fs generalizing e with
  | nil => exact Nat.le_refl _
  | cons f fs ih =>
    have hle : e.offset ≤ (e.furthest f).offset := e.offset_furthest f ▸ Nat.le_max_left ..
    exact Nat.le_trans hle (ih _)

/-- What is noted once is given up for something further into the text only. -/
theorem exists_noteAll {noted : Option Failure} {e : Failure} (he : e ∈ noted)
    (fs : List Failure) : ∃ m ∈ noteAll noted fs, e.offset ≤ m.offset := by
  rw [Option.mem_def.1 he, noteAll_some]
  exact ⟨_, rfl, e.le_offset_foldl fs⟩

end Failure

namespace Records
variable {g : Grammar ι ν ε} {s t : State ν ε} {tr : Trace ι ν ε}

theorem furthest_advances (h : Records g s tr t) {e : Failure} (he : e ∈ s.furthest) :
    ∃ m ∈ t.furthest, e.offset ≤ m.offset := by
  rw [h.furthest, State.noted]
  split
  · exact Failure.exists_noteAll he _
  · exact ⟨e, he, Nat.le_refl _⟩

/-- Inside a lookahead nothing is noted. -/
theorem furthest_of_lookahead (h : Records g s tr t) (hs : 0 < s.lookahead) :
    t.furthest = s.furthest := by
  rw [h.furthest, State.noted, if_neg (Nat.ne_of_gt hs)]

end Records

/-- What becomes of the state `s` when evaluation at `k` ends with `o` in `t`. -/
structure Restores (k : Cursor) (s : State ν ε) (o : Outcome ν) (t : State ν ε) : Prop where
  frames : t.frames = s.frames
  outer : t.outer = s.outer
  lookahead : t.lookahead = s.lookahead
  /-- What was captured before is still there, and before all else. -/
  keeps : s.scope.bindings <+: t.scope.bindings
  forgets : o.isMatch = false → t.scope = s.scope
  advances : ∀ e ∈ s.furthest, ∃ m ∈ t.furthest, e.offset ≤ m.offset
  hides : 0 < s.lookahead → t.furthest = s.furthest
  leaves : ∀ l items, o = .matched l items → l.rest <:+ k.rest
  tells : ∀ e, o = .failed e ∨ o = .aborted e → k.offset ≤ e.offset

/-- Whatever the outcome is, all that was pushed has been popped: the rules being matched, the
scopes around and the depth of lookaheads are as before. The scope has new bindings after a match
only, behind those from before. The furthest failure noted never goes back in the text, and inside
a lookahead it stays. A match leaves an end of the text, and a failure is told of a place that is
not before the one where evaluation began. -/
theorem restores_of_eval [BEq ι] {g : Grammar ι ν ε} {n : Nat} {e : Expr ι} {k : Cursor}
    {s t : State ν ε} {o : Outcome ν} (h : eval g n e k s = some (o, t)) : Restores k s o t := by
  obtain ⟨bs, ht⟩ := extends_of_eval h
  obtain ⟨-, -, -, hkeeps⟩ := reads_of_eval h
  obtain ⟨hending, hrecords⟩ := accounts_of_eval h
  have hreach := hending.reaches
  refine ⟨ht.frames, ht.outer, ht.lookahead, ⟨bs, ht.scope.symm⟩, hkeeps,
    fun e he => hrecords.furthest_advances he, hrecords.furthest_of_lookahead, ?_, ?_⟩
  · intro l items ho
    subst ho
    exact hreach.suffix
  · intro f ho
    rcases ho with rfl | rfl <;> exact hreach.offset_le

/-- An action refuses a match behind a capture, in a lookahead and with rules and scopes around. -/
theorem restores_of_eval_refused :
    let g : Grammar Unit Unit String :=
      ⟨[()], fun _ => .acting "letter" (.capture "x" (.literal "b")) fun _ => .error "refused",
        by simp⟩
    let e : Expr Unit := .choice [.seq [.capture "y" (.literal "a"), .literal "c"],
      .seq [.capture "y" (.literal "a"), .rule ()]]
    let noted : Failure := .single [] ⟨[], ⟨2, 1, 3⟩⟩ .literal "\"c\""
    let s : State Unit String := ⟨[⟨"entry", .start⟩], ⟨[("z", .node ())]⟩, [.empty], 1, some noted,
      none, []⟩
    ∃ f t, eval g 20 e (.ofText "ab") s = some (.aborted f, t) ∧ t.rejection = some "refused" ∧
      Restores (.ofText "ab") s (.aborted f) t := by
  intro g e noted s
  exact ⟨_, _, rfl, rfl, restores_of_eval (g := g) (n := 20) (e := e) rfl⟩

end Fleet.Peg
