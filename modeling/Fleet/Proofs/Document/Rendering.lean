import Mathlib.Data.List.Forall2
import Fleet.Document.Layout
import Fleet.Formation.Render
import Fleet.Formation.Representable
/-!
The canonical text of a formation is one of its documents (`render_document`).
-/

namespace Fleet.Document
open Fleet.Text Layout Language

/-! ## Parts of lines -/

theorem quoted_quoteValue {text : String} (h : IsQuotable text) :
    quoted text (quoteValue text).toList := by
  obtain ⟨-, -, hq⟩ := h
  unfold quoteValue
  split
  · next hs =>
    have hmem : '\'' ∈ text.toList := by simpa using hs
    exact ⟨'"', .inr rfl, fun hd => hq ⟨hmem, hd⟩, by simp⟩
  · next hs => exact ⟨'\'', .inl rfl, by simpa using hs, by simp⟩

theorem integer_render (n : UInt64) : integer n (renderInteger n).toList := rfl

theorem value_render {v : Value} (h : v.Representable) : value v v.render.toList := by
  cases v with
  | quoted text => exact quoted_quoteValue h
  | integer n => exact integer_render n

theorem values_render {vs : List Value} (h : ∀ v ∈ vs, v.Representable) :
    values vs (renderValues vs).toList :=
  joined_intercalate (fun v hv => value_render (h v hv)) ", "

theorem pair_render {p : Pair} (h : p.Representable) : pair p p.render.toList := by
  have hv := values_render h.2.2
  rw [Pair.render, String.toList_append, String.toList_append, List.append_assoc]
  exact append_intro rfl (append_intro rfl (by rwa [concat_singleton]))

theorem vmSpec_render {v : VmSpec} (h : v.Representable) : vmSpec v v.render.toList := by
  obtain ⟨hname, -, himage⟩ := h
  have hquoted : (concat [quoted v.image]) (quoteValue v.image).toList := by
    rw [concat_singleton]
    exact quoted_quoteValue himage
  have hkind : (concat [either (word " instances ") (word " instance "), word "with ",
      quoted v.image]) ((if v.count = 1 then " instance" else " instances").toList ++
        (" with ".toList ++ (quoteValue v.image).toList)) := by
    rw [← List.append_assoc]
    split
    · have hone : " instance".toList ++ " with ".toList = " instance ".toList ++ "with ".toList :=
        rfl
      rw [hone, List.append_assoc]
      exact append_intro (.inr rfl) (append_intro rfl hquoted)
    · have hmany : " instances".toList ++ " with ".toList =
          " instances ".toList ++ "with ".toList := rfl
      rw [hmany, List.append_assoc]
      exact append_intro (.inl rfl) (append_intro rfl hquoted)
  simp only [VmSpec.render, String.toList_append, List.append_assoc]
  exact append_intro (quoted_quoteValue hname)
    (append_intro rfl (append_intro (integer_render v.count) hkind))

/-! ## Lines -/

/-- Lines as they are written, with a line feed after each. -/
def Written (ps : List Language) (r : String) : Prop := ∃ t, lines ps t ∧ r.toList = t ++ ['\n']

namespace Written

variable {p : Language} {ps qs : List Language} {r r' text indent : String}

theorem line (h : p text.toList) : Written [p] (renderLine "" text) :=
  ⟨text.toList, h, by simp [renderLine]⟩

theorem indentedLine (hi : blanks indent.toList) (h : p text.toList) :
    Written [indented p] (renderLine indent text) :=
  ⟨indent.toList ++ text.toList, append_intro hi h, by simp [renderLine]⟩

theorem append (hp : ps ≠ []) (hq : qs ≠ []) (h : Written ps r) (h' : Written qs r') :
    Written (ps ++ qs) (r ++ r') := by
  obtain ⟨t, ht, hr⟩ := h
  obtain ⟨t', ht', hr'⟩ := h'
  refine ⟨t ++ (['\n'] ++ t'), ?_, by simp [hr, hr']⟩
  rw [lines, joined_append _ hp hq]
  exact append_intro ht (append_intro (.inr (.inl rfl)) ht')

/-- Lines that belong together, as one language of texts. -/
theorem together (h : Written ps r) : Written [lines ps] r := h

end Written

theorem pairs_written {s : Sequence} {indent : String} (hne : s ≠ []) (hs : s.Writable)
    (hi : blanks indent.toList) : Written (pairs s) (s.render indent) := by
  induction s with
  | nil => exact absurd rfl hne
  | cons p s ih =>
    have hp : Written [indented (pair p)] (renderLine indent p.render) :=
      .indentedLine hi (pair_render (hs p (by simp)))
    rw [Sequence.render, List.map_cons, String.join_cons]
    by_cases h : s = []
    · subst h
      simpa [pairs] using hp
    · exact hp.append (by simp) (by simpa [pairs] using h) (ih h fun q hq => hs q (by simp [hq]))

theorem blanks_two : blanks "  ".toList := by
  show ∀ c ∈ [' ', ' '], isBlank c
  simp [isBlank]

theorem blanks_four : blanks "    ".toList := by
  show ∀ c ∈ [' ', ' ', ' ', ' '], isBlank c
  simp [isBlank]

/-! ## Blocks -/

theorem defaults_written {s : Sequence} (hne : s ≠ []) (hs : s.Writable) :
    Written [defaults s] (renderLine "" "defaults:" ++ s.render "  ") := by
  have hline : Written [word "defaults:"] (renderLine "" "defaults:") := .line rfl
  exact (hline.append (by simp) (by simpa [pairs] using hne)
    (pairs_written hne hs blanks_two)).together

theorem declaration_written {d : Declaration} (hd : d.Representable) :
    Written [declaration d] d.render := by
  obtain ⟨hname, hne, hs⟩ := hd
  have hline : Written [concat [word "bootstrap-sequence: ", quoted d.name]]
      (renderLine "" ("bootstrap-sequence: " ++ quoteValue d.name)) := by
    refine .line ?_
    rw [String.toList_append]
    exact append_intro rfl (by rw [concat_singleton]; exact quoted_quoteValue hname)
  exact (hline.append (by simp) (by simpa [pairs] using hne)
    (pairs_written hne hs blanks_two)).together

theorem service_written {s : Service} (hs : s.Representable) : Written (service s) s.render := by
  have hone {text : String} {p : Language} {r : String} (h : p r.toList) :
      Written [indented (concat [word text, p])] (renderLine "    " (text ++ r)) := by
    refine .indentedLine blanks_four ?_
    rw [String.toList_append]
    exact append_intro rfl (by rwa [concat_singleton])
  have hfirst : Written [indented (word "service:")] (renderLine "  " "service:") :=
    .indentedLine blanks_two rfl
  exact ((hfirst.append (by simp) (by simp) (hone (integer_render s.port))).append (by simp)
    (by simp) (hone (quoted_quoteValue hs.2.1))).append (by simp) (by simp)
    (hone (integer_render s.healthPort))

theorem listeners_written {l : Listeners} (hl : l.Representable) :
    Written (listeners l) l.render := by
  cases l with
  | http ss =>
    obtain ⟨hne, hs⟩ := hl
    show Written (ss.flatMap service) (String.join (ss.map Service.render))
    induction ss with
    | nil => exact absurd rfl hne
    | cons s ss ih =>
      have hfirst := service_written (hs s (by simp))
      rw [List.flatMap_cons, List.map_cons, String.join_cons]
      by_cases h : ss = []
      · subst h
        simpa using hfirst
      · have hrest := ih h fun s' hs' => hs s' (by simp [hs'])
        refine hfirst.append (by simp [service]) ?_ hrest
        obtain ⟨s', ss, rfl⟩ := List.exists_cons_of_ne_nil h
        simp [service]
  | tcp ns =>
    refine .indentedLine blanks_two ?_
    rw [String.toList_append]
    refine append_intro rfl ?_
    rw [concat_singleton]
    exact joined_intercalate (fun n _ => integer_render n) ", "

/-- A block whose own lines, if it has any, are written as the text between flavor and steps. -/
theorem block_written {opening header own : String} {ls : List Language} {b : Block}
    (ho : opening.toList = (header ++ ": ").toList) (hb : b.Representable)
    (hown : ls = [] ∧ own = "" ∨ ls ≠ [] ∧ Written ls own) :
    Written [block opening ls b] (b.renderAs header own) := by
  obtain ⟨hspec, hflavor, hne, hs⟩ := hb
  have hline : Written [concat [word opening, vmSpec b.spec]]
      (renderLine "" (header ++ ": " ++ b.spec.render)) := by
    refine .line ?_
    rw [String.toList_append, ← ho]
    exact append_intro rfl (by rw [concat_singleton]; exact vmSpec_render hspec)
  have hsecond : Written [flavor b.flavor]
      (renderLine "  " ("vm-flavor: " ++ quoteValue b.flavor)) := by
    refine .indentedLine blanks_two ?_
    rw [String.toList_append]
    exact append_intro rfl (by rw [concat_singleton]; exact quoted_quoteValue hflavor)
  have hopen : Written [indented (word "bootstrap-sequence:")]
      (renderLine "  " "bootstrap-sequence:") := .indentedLine blanks_two rfl
  have hpairs : pairs b.sequence ≠ [] := by simpa [pairs] using hne
  have hhead := hline.append (by simp) (by simp) hsecond
  rcases hown with ⟨rfl, rfl⟩ | ⟨hls, hown⟩
  · have h := (hhead.append (by simp) (by simp) hopen).append (by simp) hpairs
      (pairs_written hne hs blanks_four)
    rw [Block.renderAs, String.append_empty]
    exact h.together
  · have h := ((hhead.append (by simp) hls hown).append (by simp) (by simp) hopen).append
      (by simp) hpairs (pairs_written hne hs blanks_four)
    simp only [List.append_assoc] at h
    exact h.together

theorem loadBalancer_written {b : Block} (hb : b.Representable) :
    Written [loadBalancer b] b.renderLoadBalancer :=
  block_written (by rw [String.toList_append]; rfl) hb (.inl ⟨rfl, rfl⟩)

theorem box_written {b : Block} (hb : b.Representable) : Written [box b] b.renderBox :=
  block_written (by rw [String.toList_append]; rfl) hb (.inl ⟨rfl, rfl⟩)

theorem pool_written {p : Pool} (hp : p.Representable) : Written [pool p] p.render := by
  obtain ⟨hb, hl⟩ := hp
  refine block_written ?_ hb (.inr ⟨?_, listeners_written hl⟩)
  · simp only [String.toList_append, List.append_assoc]
    rfl
  · exact listeners_ne_nil hl

theorem blocks_written {f : Formation} (hf : f.Representable) :
    List.Forall₂ (fun p r => Written [p] r) (blocks f) f.renderedBlocks := by
  have hmap {α : Type} {as : List α} {lang : α → Language} {render : α → String}
      (h : ∀ a ∈ as, Written [lang a] (render a)) :
      List.Forall₂ (fun p r => Written [p] r) (as.map lang) (as.map render) := by
    rw [List.forall₂_map_left_iff, List.forall₂_map_right_iff]
    exact List.forall₂_same.2 h
  have hdefaults : List.Forall₂ (fun p r => Written [p] r)
      (if f.defaults.isEmpty then [] else [defaults f.defaults])
      (if f.defaults.isEmpty then [] else
        [renderLine "" "defaults:" ++ f.defaults.render "  "]) := by
    split
    · exact .nil
    · next h => exact .cons (defaults_written (by simpa using h) hf.defaults) .nil
  refine List.rel_append (List.rel_append (List.rel_append (List.rel_append hdefaults
    (hmap fun d hd => ?_)) (hmap fun b hb => ?_)) (hmap fun p hp => ?_)) (hmap fun b hb => ?_)
  · exact declaration_written (hf.declarations d hd)
  · exact loadBalancer_written (hf.loadBalancer b (by simpa using hb))
  · exact pool_written (hf.pools p hp)
  · exact box_written (hf.boxes b hb)

/-- Blocks with a line feed between every two are an empty line apart. -/
theorem intercalate_written {ps : List Language} {rs : List String}
    (h : List.Forall₂ (fun p r => Written [p] r) ps rs) :
    (joined gap ps).append trailing ("\n".intercalate rs).toList := by
  have hline : newline ['\n'] := .inr (.inl rfl)
  have hgap : gap ['\n', '\n'] :=
    ⟨⟨['\n'], ['\n'], rfl, hline, .cons (b := []) hline .nil⟩, by simp [newline]⟩
  have htrailing : trailing ['\n'] := by simp [trailing, isBreak]
  induction h with
  | nil => exact ⟨[], [], rfl, rfl, by simp [trailing]⟩
  | @cons p r ps rs hr hrest ih =>
    obtain ⟨t, ht, hr⟩ := hr
    cases hrest with
    | nil =>
      rw [String.intercalate_singleton, hr]
      exact append_intro ht htrailing
    | @cons q r' ps rs hr' hrest =>
      obtain ⟨a, e, he, ha, htrail⟩ := ih
      rw [String.intercalate_cons_cons, String.toList_append, String.toList_append, hr, he]
      refine ⟨t ++ (['\n', '\n'] ++ a), e, by simp, ?_, htrail⟩
      exact append_intro ht (append_intro hgap ha)

/-- The canonical text is a document. -/
theorem render_document {f : Formation} (hf : f.Representable) :
    document gap f f.render.toList := by
  obtain ⟨a, e, he, ha, htrailing⟩ := intercalate_written (blocks_written hf)
  rw [Formation.render, he]
  exact append_intro (a := []) .nil (append_intro ha (by rwa [concat_singleton]))

end Fleet.Document
