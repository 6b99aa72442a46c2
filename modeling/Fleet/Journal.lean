import Fleet.Fault
import Fleet.Text.Escaped
/-!
The journal of a computation: what it did along the way, kept whether it succeeds or not.
-/

namespace Fleet

inductive Level where
  | trace | debug | info
deriving DecidableEq, Repr

inductive Event where
  | matching (rule : String) (bytes : Nat) (source : String)
  | rejected (rule : String) (line : Nat) (reason : String)
  | parsing (source : String)
  | parsed (declarations pools boxes : Nat) (source : String)
  | resolving (owner : Owner)
  | expanding (names : Nat) (owner : Owner)
  | compiled (source : String)
  | textRead (bytes : Nat)
  | validating (files : Nat) (location : String)
  | validated (name : String) (pools boxes : Nat)
deriving DecidableEq, Repr

namespace Event
open Text

def level : Event → Level
  | matching .. | rejected .. | expanding .. => .trace
  | parsing _ | parsed .. | resolving _ | compiled _ | textRead _ | validated .. => .debug
  | validating .. => .info

def message : Event → String
  | matching rule bytes source =>
    s!"Matching rule {rule} against {bytes} bytes from {quote source}"
  | rejected rule line reason => s!"Rule {rule} rejected match at line {line}: {reason}"
  | parsing source => s!"Parsing cloud formation from {quote source}"
  | parsed declarations pools boxes source =>
    s!"Parsed {declarations} named sequences, {pools} pools and {boxes} boxes from {quote source}"
  | resolving owner => s!"Resolving bootstrap sequence for {owner.label}"
  | expanding names owner => s!"Expanding include of {names} named sequences for {owner.label}"
  | compiled source => s!"Compiled {quote source}"
  | textRead bytes => s!"Read {bytes} bytes of cloud formation text"
  | validating files location => s!"Validating {files} cloud formation files under {location}"
  | validated name pools boxes => s!"{name} has {pools} pools and {boxes} boxes"

end Event

/-- An answer or a fault, and the events on the way to it. -/
structure Journaled (α : Type) where
  events : List Event
  outcome : Except Fault α

namespace Journaled
variable {α β : Type}

def ok (a : α) : Journaled α := ⟨[], .ok a⟩

def fault (f : Fault) : Journaled α := ⟨[], .error f⟩

def note (e : Event) : Journaled Unit := ⟨[e], .ok ()⟩

def andThen (x : Journaled α) (f : α → Journaled β) : Journaled β :=
  match x.outcome with
  | .error e => ⟨x.events, .error e⟩
  | .ok a => ⟨x.events ++ (f a).events, (f a).outcome⟩

instance : Monad Journaled where
  pure := ok
  bind := andThen

instance : MonadExceptOf Fault Journaled where
  throw := fault
  tryCatch x handle :=
    match x.outcome with
    | .ok _ => x
    | .error e => ⟨x.events ++ (handle e).events, (handle e).outcome⟩

def ofExcept (x : Except Fault α) : Journaled α := ⟨[], x⟩

@[simp] theorem outcome_pure (a : α) : (pure a : Journaled α).outcome = .ok a := rfl

@[simp] theorem outcome_throw (f : Fault) : (throw f : Journaled α).outcome = .error f := rfl

@[simp] theorem outcome_note (e : Event) : (note e).outcome = .ok () := rfl

@[simp] theorem outcome_ofExcept (x : Except Fault α) : (ofExcept x).outcome = x := rfl

/-- The journal never changes what is computed. -/
@[simp] theorem outcome_bind (x : Journaled α) (f : α → Journaled β) :
    (x >>= f).outcome = x.outcome.bind fun a => (f a).outcome := by
  obtain ⟨events, _ | a⟩ := x <;> rfl

/-- A computation succeeds where each of its steps does. -/
theorem outcome_bind_eq_ok {x : Journaled α} {f : α → Journaled β} {b : β} :
    (x >>= f).outcome = .ok b ↔ ∃ a, x.outcome = .ok a ∧ (f a).outcome = .ok b := by
  rw [outcome_bind]
  cases x.outcome <;> simp [Except.bind]

/-- It fails where one of them does, after those before it. -/
theorem outcome_bind_eq_error {x : Journaled α} {f : α → Journaled β} {e : Fault} :
    (x >>= f).outcome = .error e ↔
      x.outcome = .error e ∨ ∃ a, x.outcome = .ok a ∧ (f a).outcome = .error e := by
  rw [outcome_bind]
  cases x.outcome <;> simp [Except.bind]

end Journaled

end Fleet
