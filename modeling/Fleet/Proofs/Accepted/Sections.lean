import Fleet.Proofs.Accepted.Documents
import Fleet.Proofs.Document.Rendering
/-!
Where everything in a text that is parsed belongs (`Formation.sections_of_parse`): the text is cut
into its sections in their order, and each of them into its blocks, their lines and the tokens on
them. What is parsed says all of it but blanks, line ends and the choice of quotes.
-/

namespace Fleet.Document
open Fleet.Text Layout Language

variable {f : Formation} {ls ks : List Language} {t : List Char}

/-- A section comes before the blocks that follow it, or it is absent. -/
theorem joined_section (ls : List Language) (hk : ks ≠ []) :
    joined newlines (ls ++ ks) = (sectionOf ls).append (joined newlines ks) := by
  unfold sectionOf
  cases ls with
  | nil => exact (nothing_append _).symm
  | cons l ls => rw [joined_append _ (List.cons_ne_nil l ls) hk]; simp [append_assoc]

/-- The blocks from the load balancer on. -/
theorem machines_of_joined (hf : f.Representable)
    (ht : joined newlines (f.loadBalancer.toList.map loadBalancer ++
      (f.pools.map pool ++ f.boxes.map box)) t) :
    (machines f).append (joined newlines (f.boxes.map box)) t := by
  unfold machines
  cases hlb : f.loadBalancer with
  | none =>
    have hpools : f.pools = [] := by simpa [hlb] using hf.balanced
    simpa [hlb, hpools] using ht
  | some b =>
    have hpools : f.pools.map pool ≠ [] := by simpa using hf.balanced.1 (by simp [hlb])
    rw [hlb] at ht
    replace ht : joined newlines (loadBalancer b :: (f.pools.map pool ++ f.boxes.map box)) t := ht
    rw [joined_cons_of_ne_nil _ _ (by simp [hpools])] at ht
    obtain ⟨u, _, rfl, hu, n, v, rfl, hn, hv⟩ := ht
    by_cases hboxes : f.boxes = []
    · rw [hboxes] at hv ⊢
      rw [List.map_nil, List.append_nil] at hv
      refine ⟨u ++ (n ++ (v ++ ([] ++ []))), [], by simp, ?_, rfl⟩
      exact append_intro hu (append_intro hn (append_intro hv (append_intro (.inr rfl) rfl)))
    · rw [joined_append _ hpools (by simpa using hboxes)] at hv
      obtain ⟨p, _, rfl, hp, m, w, rfl, hm, hw⟩ := hv
      refine ⟨u ++ (n ++ (p ++ (m ++ []))), w, by simp, ?_, hw⟩
      rw [if_neg (by simpa using hboxes)]
      exact append_intro hu (append_intro hn (append_intro hp (append_intro hm rfl)))

/-- The blocks of a document that has any machines are those of its sections. -/
theorem sections_of_document (hf : f.Representable)
    (hne : f.loadBalancer.isSome = true ∨ f.boxes ≠ []) (ht : document gap f t) :
    sections f t := by
  obtain ⟨w, _, rfl, hw, a, e, rfl, ha, he⟩ := ht
  replace ha : joined newlines (blocks f) a := joined_imp (fun _ h => h.1) ha
  have hmachines : f.loadBalancer.toList.map loadBalancer ++
      (f.pools.map pool ++ f.boxes.map box) ≠ [] := by
    rcases hne with h | h
    · obtain ⟨b, hb⟩ := Option.isSome_iff_exists.1 h
      simp [hb]
    · simp [h]
  simp only [blocks, List.append_assoc] at ha
  rw [joined_section _ (by simp [hmachines]), joined_section _ hmachines] at ha
  obtain ⟨d, _, rfl, hd, n, m, rfl, hn, hm⟩ := ha
  obtain ⟨p, b, rfl, hp, hb⟩ := machines_of_joined hf hm
  simp only [List.append_assoc]
  exact append_intro hw (append_intro hd (append_intro hn (append_intro hp (append_intro hb he))))

end Fleet.Document

namespace Fleet
open Document

/-- A text that is parsed is laid out section by section as the formation says, and the formation
is one that can be written and that has something to provision. -/
theorem Formation.sections_of_parse {source text : String} {f : Formation}
    (h : (Formation.parse source text).outcome = .ok f) :
    Layout.sections f text.toList ∧ f.Representable ∧
      (f.loadBalancer.isSome = true ∨ f.boxes ≠ []) := by
  obtain ⟨hf, ht, hne⟩ := document_of_parse h
  exact ⟨sections_of_document hf hne ht, hf, hne⟩

theorem Formation.sections_of_parse_pool :
    ∃ text f, text = "load-balancer: 'front', 1 instance with 'haproxy'\n" ++
        "  vm-flavor: 'small'\n" ++ "  bootstrap-sequence:\n" ++ "    git: 'repo'\n" ++ "\n" ++
        "tcp-pool: 'api', 2 instances with 'debian'\n" ++ "  vm-flavor: 'small'\n" ++
        "  ports: 80, 443\n" ++ "  bootstrap-sequence:\n" ++ "    git: 'repo'\n" ∧
      (Formation.parse "" text).outcome = .ok f ∧ Layout.sections f text.toList ∧
      f.Representable ∧ (f.loadBalancer.isSome = true ∨ f.boxes ≠ []) := by
  let f : Formation := ⟨[], [],
    some ⟨⟨"front", 1, "haproxy"⟩, "small", [⟨"git", [.quoted "repo"]⟩]⟩,
    [⟨⟨⟨"api", 2, "debian"⟩, "small", [⟨"git", [.quoted "repo"]⟩]⟩, .tcp [80, 443]⟩], []⟩
  have hgit : IsKey "git" := .of_letters (by decide) rfl
  have hf : f.Representable := by
    refine ⟨?_, ?_, ?_, ?_, ?_, ?_⟩ <;>
      simp [f, Sequence.Writable, Pair.Representable, Value.Representable, IsQuotable, hgit,
        Block.Representable, VmSpec.Representable, Sequence.Representable, Pool.Representable,
        Listeners.Representable]
  have hparse : (Formation.parse "" f.render).outcome = .ok f :=
    (parse_of_document hf (render_document hf)).trans (if_neg (by simp [f]))
  exact ⟨f.render, f, by decide +kernel, hparse, Formation.sections_of_parse hparse⟩

end Fleet
