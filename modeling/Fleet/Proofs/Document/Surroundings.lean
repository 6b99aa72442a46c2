import Fleet.Proofs.Accepted.Documents
import Fleet.Proofs.Document.Rendering
/-!
Which texts are parsed as a formation (`Formation.parse_ok_iff`): the documents of it in which an
empty line or more stands between every two blocks. Line ends before such a document, and blanks
and line ends after it, make another one (`Formation.parse_surrounded`).
-/

namespace Fleet.Document
open Fleet.Text Layout Language

variable {p s t : List Char} {f : Formation}

theorem document_surrounded {separator : Language} (hp : ∀ c ∈ p, isBreak c)
    (ht : document separator f t) (hs : trailing s) : document separator f (p ++ (t ++ s)) := by
  obtain ⟨w, _, rfl, hw, a, _, rfl, ha, e, _, rfl, he, rfl⟩ := ht
  have hbreaks : Star newline (p ++ w) :=
    star_newline_of_isBreak (List.forall_mem_append.2 ⟨hp, star_newline_isBreak hw⟩)
  have htrailing : trailing (e ++ s) := List.forall_mem_append.2 ⟨he, hs⟩
  have hall : document separator f ((p ++ w) ++ (a ++ ((e ++ s) ++ []))) :=
    append_intro hbreaks (append_intro ha (append_intro htrailing rfl))
  simpa [List.append_assoc] using hall

end Fleet.Document

namespace Fleet
open Document Layout Text

variable {source text : String} {f : Formation}

/-- A text is parsed as a formation just if it is a document of it, the formation can be written,
and it has anything to provision. -/
theorem Formation.parse_ok_iff :
    (Formation.parse source text).outcome = .ok f ↔
      f.Representable ∧ document gap f text.toList ∧
        (f.loadBalancer.isSome = true ∨ f.boxes ≠ []) := by
  refine ⟨document_of_parse, fun h => ?_⟩
  obtain ⟨hf, ht, hne⟩ := h
  exact parse_ok_of_document hf ht hne

/-- What is parsed with nothing around it is parsed just so with line ends before it and with blanks
and line ends after it, a CR and an LF that come to stand side by side included. -/
theorem Formation.parse_surrounded {before after : String}
    (h : (Formation.parse source text).outcome = .ok f)
    (hbefore : ∀ c ∈ before.toList, isBreak c)
    (hafter : ∀ c ∈ after.toList, isBlank c ∨ isBreak c) :
    (Formation.parse source (before ++ text ++ after)).outcome = .ok f := by
  obtain ⟨hf, ht, hne⟩ := Formation.parse_ok_iff.1 h
  refine Formation.parse_ok_iff.2 ⟨hf, ?_, hne⟩
  have hall := document_surrounded hbefore ht hafter
  simpa [String.toList_append, List.append_assoc] using hall

theorem Formation.parse_surrounded_box :
    ∃ text f, text = "box: 'web', 1 instance with 'debian'\n" ++ "  vm-flavor: 'small'\n" ++
        "  bootstrap-sequence:\n" ++ "    git: 'repo'\n" ∧
      (Formation.parse "" text).outcome = .ok f ∧ (∀ c ∈ "\n\r\n".toList, isBreak c) ∧
      (∀ c ∈ "\r\t \n".toList, isBlank c ∨ isBreak c) ∧
      (Formation.parse "" ("\n\r\n" ++ text ++ "\r\t \n")).outcome = .ok f := by
  let f : Formation :=
    ⟨[], [], none, [], [⟨⟨"web", 1, "debian"⟩, "small", [⟨"git", [.quoted "repo"]⟩]⟩]⟩
  have hgit : IsKey "git" := .of_letters (by decide) rfl
  have hf : f.Representable := by
    refine ⟨?_, ?_, ?_, ?_, ?_, ?_⟩ <;>
      simp [f, Sequence.Writable, Pair.Representable, Value.Representable, IsQuotable, hgit,
        Block.Representable, VmSpec.Representable, Sequence.Representable]
  have hparse : (Formation.parse "" f.render).outcome = .ok f :=
    parse_ok_of_document hf (render_document hf) (.inr (by simp [f]))
  have hbefore : ∀ c ∈ "\n\r\n".toList, isBreak c := by simp [isBreak]
  have hafter : ∀ c ∈ "\r\t \n".toList, isBlank c ∨ isBreak c := by simp [isBlank, isBreak]
  exact ⟨f.render, f, by decide +kernel, hparse, hbefore, hafter,
    Formation.parse_surrounded hparse hbefore hafter⟩

end Fleet
