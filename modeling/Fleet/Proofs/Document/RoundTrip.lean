import Fleet.Proofs.Document.Documents
import Fleet.Proofs.Document.Rendering
/-!
The canonical text of a formation is parsed back to it.
-/

namespace Fleet
open Document

/-- A formation that can be written is what its canonical text is parsed as, if it has anything to
provision; the text of one that has nothing is refused for that. -/
theorem Formation.parse_render {f : Formation} (hf : f.Representable) (source : String) :
    ((f.loadBalancer.isSome = true ∨ f.boxes ≠ []) →
      (Formation.parse source f.render).outcome = .ok f) ∧
    (¬ (f.loadBalancer.isSome = true ∨ f.boxes ≠ []) →
      (Formation.parse source f.render).outcome = .error .emptyFormation) := by
  have hparse : (Formation.parse source f.render).outcome = _ :=
    parse_of_document hf (render_document hf)
  have hiff : (f.loadBalancer.isNone && f.boxes.isEmpty) = true ↔
      ¬ (f.loadBalancer.isSome = true ∨ f.boxes ≠ []) := by
    simp
  constructor
  · intro h
    rw [hparse, if_neg fun hn => hiff.1 hn h]
  · intro h
    rw [hparse, if_pos (hiff.2 h)]

theorem Formation.parse_render_box :
    (Formation.parse "fleet" (Formation.render ⟨[], [], none, [],
      [⟨⟨"db", 1, "postgres"⟩, "small", [⟨"inline bash", [.quoted "it's", .integer 7]⟩]⟩]⟩)).outcome
      = .ok ⟨[], [], none, [],
        [⟨⟨"db", 1, "postgres"⟩, "small", [⟨"inline bash", [.quoted "it's", .integer 7]⟩]⟩]⟩ := by
  refine (Formation.parse_render ⟨?_, ?_, ?_, ?_, ?_, ?_⟩ "fleet").1 (.inr (by simp))
  · simp [Sequence.Writable]
  · simp
  · simp
  · simp
  · have hkey : IsKey "inline bash" :=
      ⟨['i', 'n', 'l', 'i', 'n', 'e'], [(' ', ['b', 'a', 's', 'h'])], rfl, by simp, by simp,
        by simp [isKeyChar]⟩
    simp [Block.Representable, VmSpec.Representable, Sequence.Representable, Sequence.Writable,
      Pair.Representable, Value.Representable, IsQuotable, hkey]
  · simp

end Fleet
