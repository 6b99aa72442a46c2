import Fleet.Formation.Basic
/-!
Formations that have a text: what they hold can be written in the form of a document, and no list
is empty that a document cannot leave empty.
-/

namespace Fleet

/-- A character that the words of a key after the first are made of. -/
def isKeyChar (c : Char) : Bool := c.isAlphanum || c == '_' || c == '.'

/-- A word of letters, and more words each after a dash or a space. -/
def IsKey (key : String) : Prop :=
  ∃ (first : List Char) (words : List (Char × List Char)),
    key.toList = first ++ words.flatMap (fun w => w.1 :: w.2) ∧
    first ≠ [] ∧ (∀ c ∈ first, c.isAlpha) ∧
    ∀ w ∈ words, (w.1 = '-' ∨ w.1 = ' ') ∧ w.2 ≠ [] ∧ ∀ c ∈ w.2, isKeyChar c

theorem IsKey.of_letters {key : String} (hne : key ≠ "")
    (h : key.toList.all Char.isAlpha = true) : IsKey key :=
  ⟨key.toList, [], by simp, by simpa using hne, by simpa using h, by simp⟩

theorem IsKey.of_joined {key : String} {joiner : Char} (first second : String)
    (hjoiner : joiner = '-' ∨ joiner = ' ')
    (hkey : key.toList = first.toList ++ joiner :: second.toList) (hne : first ≠ "" ∧ second ≠ "")
    (hfirst : first.toList.all Char.isAlpha = true)
    (hsecond : second.toList.all isKeyChar = true) : IsKey key :=
  ⟨first.toList, [(joiner, second.toList)], by simpa using hkey, by simpa using hne.1,
    by simpa using hfirst, by simpa [hne.2, hjoiner] using hsecond⟩

theorem IsKey.of_dashed {key : String} (first second : String)
    (hkey : key.toList = first.toList ++ '-' :: second.toList) (hne : first ≠ "" ∧ second ≠ "")
    (hfirst : first.toList.all Char.isAlpha = true)
    (hsecond : second.toList.all isKeyChar = true) : IsKey key :=
  .of_joined first second (.inl rfl) hkey hne hfirst hsecond

theorem IsKey.exists_letter {key : String} (hk : IsKey key) :
    ∃ c u, key.toList = c :: u ∧ c.isAlpha = true := by
  obtain ⟨first, words, hkey, hne, hfirst, -⟩ := hk
  obtain ⟨c, first, rfl⟩ := List.exists_cons_of_ne_nil hne
  exact ⟨c, _, hkey, hfirst c (by simp)⟩

/-- The colon after a key is the first one of its line. -/
theorem IsKey.colon_not_mem {key : String} (hk : IsKey key) : ':' ∉ key.toList := by
  obtain ⟨first, words, hkey, -, hfirst, hwords⟩ := hk
  rw [hkey]
  intro h
  rcases List.mem_append.1 h with h | h
  · exact absurd (hfirst _ h) (by decide)
  · obtain ⟨w, hw, hc⟩ := List.mem_flatMap.1 h
    obtain ⟨hjoin, -, hchars⟩ := hwords w hw
    rcases List.mem_cons.1 hc with hc | hc
    · rcases hjoin with hj | hj <;> rw [← hc] at hj <;> exact absurd hj (by decide)
    · exact absurd (hchars _ hc) (by decide)

/-- The text fits on a line, in one kind of quotes at least. -/
def IsQuotable (text : String) : Prop :=
  '\n' ∉ text.toList ∧ '\r' ∉ text.toList ∧ ¬ ('\'' ∈ text.toList ∧ '"' ∈ text.toList)

namespace Value

def Representable : Value → Prop
  | quoted text => IsQuotable text
  | integer n => n ≠ 0

end Value

def Pair.Representable (p : Pair) : Prop :=
  IsKey p.key ∧ p.values ≠ [] ∧ ∀ v ∈ p.values, v.Representable

/-- Every pair can be written; the sequence itself may be empty. -/
def Sequence.Writable (s : Sequence) : Prop := ∀ p ∈ s, p.Representable

def Sequence.Representable (s : Sequence) : Prop := s ≠ [] ∧ s.Writable

def Declaration.Representable (d : Declaration) : Prop :=
  IsQuotable d.name ∧ d.sequence.Representable

def VmSpec.Representable (v : VmSpec) : Prop :=
  IsQuotable v.name ∧ v.count ≠ 0 ∧ IsQuotable v.image

def Service.Representable (s : Service) : Prop :=
  s.port ≠ 0 ∧ IsQuotable s.endpoint ∧ s.healthPort ≠ 0

def Block.Representable (b : Block) : Prop :=
  b.spec.Representable ∧ IsQuotable b.flavor ∧ b.sequence.Representable

def Listeners.Representable : Listeners → Prop
  | http services => services ≠ [] ∧ ∀ s ∈ services, s.Representable
  | tcp ports => ports ≠ [] ∧ ∀ n ∈ ports, n ≠ 0

def Pool.Representable (p : Pool) : Prop :=
  p.toBlock.Representable ∧ p.listeners.Representable

/-- The load balancer comes with pools and pools come with the load balancer. -/
structure Formation.Representable (f : Formation) : Prop where
  defaults : f.defaults.Writable
  declarations : ∀ d ∈ f.declarations, d.Representable
  loadBalancer : ∀ b ∈ f.loadBalancer, b.Representable
  pools : ∀ p ∈ f.pools, p.Representable
  boxes : ∀ b ∈ f.boxes, b.Representable
  balanced : f.loadBalancer.isSome ↔ f.pools ≠ []

end Fleet
