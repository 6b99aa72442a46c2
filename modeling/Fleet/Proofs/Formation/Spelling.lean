import Fleet.Proofs.Formation.Checking
/-!
Which formations that pass the check have a text that is parsed back (`parse_render_of_check`). The
check asks for a load balancer with pools or for boxes, so beside boxes it lets a load balancer
stand without pools, and pools without one, which no document does (`check_unbalanced`); and it
looks into no sequence but those of blocks.
-/

namespace Fleet
open Document

variable {f : Formation}

/-! ## What is written with characters -/

/-- The key and each value can be written, whether there are values or not. -/
def Pair.Spellable (p : Pair) : Prop := IsKey p.key ∧ ∀ v ∈ p.values, v.Representable

def Sequence.Spellable (s : Sequence) : Prop := ∀ p ∈ s, p.Spellable

def Block.Spellable (b : Block) : Prop :=
  b.spec.Representable ∧ IsQuotable b.flavor ∧ b.sequence.Spellable

def Listeners.Spellable : Listeners → Prop
  | http services => ∀ s ∈ services, s.Representable
  | tcp ports => ∀ n ∈ ports, n ≠ 0

/-- Every key, every text and every number of the formation can be written. -/
structure Formation.Spellable (f : Formation) : Prop where
  defaults : f.defaults.Spellable
  declarations : ∀ d ∈ f.declarations, IsQuotable d.name ∧ d.sequence.Spellable
  loadBalancer : ∀ b ∈ f.loadBalancer, b.Spellable
  pools : ∀ p ∈ f.pools, p.toBlock.Spellable ∧ p.listeners.Spellable
  boxes : ∀ b ∈ f.boxes, b.Spellable

theorem Sequence.Spellable.writable {s : Sequence} (hs : s.Spellable)
    (hv : ∀ p ∈ s, p.values ≠ []) : s.Writable := by
  intro p hp
  obtain ⟨hkey, hvalues⟩ := hs p hp
  exact ⟨hkey, hv p hp, hvalues⟩

theorem Listeners.Spellable.representable {l : Listeners} (hl : l.Spellable)
    (hne : l.isEmpty = false) : l.Representable := by
  cases l with
  | http services => exact ⟨by simpa [Listeners.isEmpty] using hne, hl⟩
  | tcp ports => exact ⟨by simpa [Listeners.isEmpty] using hne, hl⟩

/-- A block whose sequence passes the check is written as a whole if its parts are. -/
theorem Formation.Complete.block (hf : f.Complete) {b : Block} (hb : b.Spellable)
    (hs : b.sequence ∈ f.sequences) : b.Representable := by
  obtain ⟨hspec, hflavor, hsequence⟩ := hb
  obtain ⟨hne, hvalues, -⟩ := hf.sequences _ hs
  exact ⟨hspec, hflavor, hne, hsequence.writable hvalues⟩

/-- What is complete and made of what can be written can be written, if its load balancer and its
pools come together and the lists that no block has are not empty. -/
theorem Formation.Complete.representable (hf : f.Complete) (hs : f.Spellable)
    (hv : ∀ p ∈ f.defaults, p.values ≠ [])
    (hd : ∀ d ∈ f.declarations, d.sequence ≠ [] ∧ ∀ p ∈ d.sequence, p.values ≠ [])
    (hb : f.loadBalancer.isSome = true ↔ f.pools ≠ []) : f.Representable := by
  refine ⟨hs.defaults.writable hv, fun d hm => ?_, fun b hm => ?_, fun p hm => ?_, fun b hm => ?_,
    hb⟩
  · obtain ⟨hname, hsequence⟩ := hs.declarations d hm
    obtain ⟨hne, hvalues⟩ := hd d hm
    exact ⟨hname, hne, hsequence.writable hvalues⟩
  · refine hf.block (hs.loadBalancer b hm) ?_
    simp [Formation.sequences_eq, Option.mem_def.1 hm]
  · obtain ⟨hblock, hlisteners⟩ := hs.pools p hm
    refine ⟨hf.block hblock ?_, hlisteners.representable (hf.listeners p hm)⟩
    rw [Formation.sequences_eq]
    exact List.mem_append_left _ (List.mem_append_right _
      (List.mem_map_of_mem (f := fun p : Pool => p.sequence) hm))
  · refine hf.block (hs.boxes b hm) ?_
    rw [Formation.sequences_eq]
    exact List.mem_append_right _ (List.mem_map_of_mem hm)

namespace Formation

/-- A formation that passes the check, made of keys, texts and numbers that can be written, and with
pairs in its declarations and values in all pairs outside blocks, is what its canonical text is
parsed as just if the load balancer comes with pools and pools come with the load balancer. -/
theorem parse_render_of_check (hc : f.check = .ok ()) (hs : f.Spellable)
    (hv : ∀ p ∈ f.defaults, p.values ≠ [])
    (hd : ∀ d ∈ f.declarations, d.sequence ≠ [] ∧ ∀ p ∈ d.sequence, p.values ≠ [])
    (source : String) :
    (Formation.parse source f.render).outcome = .ok f ↔
      (f.loadBalancer.isSome = true ↔ f.pools ≠ []) := by
  have hf := check_ok_iff.1 hc
  constructor
  · intro h
    obtain ⟨hrep, -, -⟩ := document_of_parse h
    exact hrep.balanced
  · intro hb
    have hrep := hf.representable hs hv hd hb
    exact parse_ok_of_document hrep (render_document hrep) (hf.machines.imp_left And.left)

theorem parse_render_of_check_declared :
    let f : Formation := ⟨[⟨"region", [.quoted "eu"]⟩],
      [⟨"base", [⟨"include", [.quoted "others"]⟩]⟩],
      some ⟨⟨"front", 1, "haproxy"⟩, "small", [⟨"git", [.quoted "repo"]⟩]⟩,
      [⟨⟨⟨"api", 2, "debian"⟩, "small", [⟨"git", [.quoted "repo"]⟩]⟩, .tcp [80, 443]⟩], []⟩
    f.check = .ok () ∧ (Formation.parse "" f.render).outcome = .ok f := by
  intro f
  have hkey {key : String} (hne : key ≠ "") (h : key.toList.all Char.isAlpha = true) : IsKey key :=
    .of_letters hne h
  have hs : f.Spellable := by
    refine ⟨?_, ?_, ?_, ?_, ?_⟩ <;>
      simp [f, Sequence.Spellable, Pair.Spellable, Value.Representable, IsQuotable, hkey,
        Block.Spellable, VmSpec.Representable, Listeners.Spellable]
  have hc : f.check = .ok () := rfl
  exact ⟨hc, (parse_render_of_check hc hs (by simp [f]) (by simp [f]) "").2 (by simp [f])⟩

/-- Beside a box the check lets a load balancer stand without pools. No text is parsed as that. -/
theorem check_unbalanced :
    let git : Sequence := [⟨"git", [.quoted "repo"]⟩]
    let f : Formation := ⟨[], [], some ⟨⟨"front", 1, "haproxy"⟩, "small", git⟩, [],
      [⟨⟨"web", 1, "debian"⟩, "small", git⟩]⟩
    f.check = .ok () ∧ f.Spellable ∧
      ∀ source text, (Formation.parse source text).outcome ≠ .ok f := by
  intro git f
  have hgit : IsKey "git" := .of_letters (by decide) rfl
  have hs : f.Spellable := by
    refine ⟨?_, ?_, ?_, ?_, ?_⟩ <;>
      simp [f, git, Sequence.Spellable, Pair.Spellable, Value.Representable, IsQuotable, hgit,
        Block.Spellable, VmSpec.Representable]
  refine ⟨rfl, hs, fun source text h => ?_⟩
  obtain ⟨hrep, -, -⟩ := document_of_parse h
  exact hrep.balanced.1 rfl rfl

end Formation

end Fleet
