import Fleet.Proofs.Accepted.Refusals
import Fleet.Proofs.Document.Ranks
import Fleet.Proofs.Document.RoundTrip
import Fleet.Proofs.Peg.LineEnds
/-!
How the lines of a document end makes no difference to what it is parsed as, and CR LF makes none
to what it is refused with (`parse_lineEnds`).
-/

namespace Fleet.Document
open Fleet.Peg Fleet.Text

/-- The names under which actions look at text. -/
def spelledNames : List String := ["digits", "key", "text", "pool_type"]

theorem grammar_lineNeutral : grammar.LineNeutral .newline spelledNames where
  lineEnd := ⟨_, rfl⟩
  body id hid := by
    cases id with
    | newline => exact absurd rfl hid
    | _ => decide +kernel
  action id action ha c := by
    cases id with
    | newline | quoted | value | flavor | steps | ports | endOfInput | sectionBreak => cases ha
    | integerList | valueList | pairList | declarationList | serviceList | poolList | boxList =>
      cases ha
      simp [Rule.listNodes]
    | integer | key | singleQuoted | doubleQuoted =>
      cases ha
      simp [Action.integer, Action.key, Action.quoted, Captures.text_seen, spelledNames]
    | pair | declaration | vmSpec | service | defaults =>
      cases ha
      simp [Action.pair, Action.declaration, Action.vmSpec, Action.service, Action.defaults,
        required]
    | loadBalancer | box =>
      cases ha
      simp [Action.loadBalancer, Action.box, Action.block, required]
    | pool =>
      cases ha
      simp [Action.pool, Action.block, required, Captures.text_seen, spelledNames]
    | start =>
      cases ha
      simp [Action.formation, orElse, required]

/-- With CR LF a failure is reported as with line feeds. -/
theorem report_crlf {text : List Char} {e e' : Failure}
    (h : Failure.Beside .crlf text e e') (source : String) : e.report source = e'.report source := by
  obtain ⟨hline, hcolumn⟩ := h.cursor.line_column
  simp [Failure.report, Failure.context, Failure.found, hline, hcolumn, h.path, h.expected,
    h.cursor.atEnd, h.cursor.line, h.anchor rfl]

end Fleet.Document

namespace Fleet
open Document Peg Text

/-- Let every line of a text end with a line feed, and let CR LF or CR take its place throughout.
Then all three are parsed as the same formation, or all three are refused with the same semantic
fault, or all three for their form, and then the one with CR LF is reported on like the first. -/
theorem Formation.parse_lineEnds (source : String) {text : String} (ht : '\r' ∉ text.toList) :
    (∃ f, (Formation.parse source text).outcome = .ok f ∧
        (Formation.parse source (LineEnd.crlf.write text)).outcome = .ok f ∧
        (Formation.parse source (LineEnd.cr.write text)).outcome = .ok f) ∨
      (∃ e : Fault, e.isSemantic = true ∧
        (Formation.parse source text).outcome = .error e ∧
        (Formation.parse source (LineEnd.crlf.write text)).outcome = .error e ∧
        (Formation.parse source (LineEnd.cr.write text)).outcome = .error e) ∨
      ∃ report report', (Formation.parse source text).outcome = .error (.malformed report) ∧
        (Formation.parse source (LineEnd.crlf.write text)).outcome = .error (.malformed report) ∧
        (Formation.parse source (LineEnd.cr.write text)).outcome = .error (.malformed report') := by
  simp only [Formation.outcome_parse]
  have hcrlf := run_concurs grammar_notLeftRecursive grammar_lineNeutral .start .crlf ht
  have hcr := run_concurs grammar_notLeftRecursive grammar_lineNeutral .start .cr ht
  generalize hrun : (grammar.run .start text).result = result at hcrlf hcr ⊢
  generalize (grammar.run .start (LineEnd.crlf.write text)).result = resultCrlf at hcrlf ⊢
  generalize (grammar.run .start (LineEnd.cr.write text)).result = resultCr at hcr ⊢
  cases hcrlf with
  | ok nodes =>
    cases hcr
    obtain ⟨f, rfl, -⟩ := document_of_run hrun
    exact .inl ⟨f, rfl, rfl, rfl⟩
  | rejected error =>
    cases hcr
    exact .inr (.inl ⟨error, (refuses_of_run hrun).isSemantic, rfl, rfl, rfl⟩)
  | malformed he =>
    cases hcr
    refine .inr (.inr ⟨_, _, rfl, ?_, rfl⟩)
    rw [report_crlf he]
    rfl

theorem Formation.parse_lineEnds_box :
    let text := "box: 'web', 1 instance with 'debian'\n" ++ "  vm-flavor: 'small'\n" ++
      "  bootstrap-sequence:\n" ++ "    git: 'repo'\n"
    let f : Formation :=
      ⟨[], [], none, [], [⟨⟨"web", 1, "debian"⟩, "small", [⟨"git", [.quoted "repo"]⟩]⟩]⟩
    '\r' ∉ text.toList ∧ (Formation.parse "" text).outcome = .ok f ∧
      (Formation.parse "" (LineEnd.crlf.write text)).outcome = .ok f ∧
      (Formation.parse "" (LineEnd.cr.write text)).outcome = .ok f := by
  intro text f
  have ht : '\r' ∉ text.toList := by decide +kernel
  have hgit : IsKey "git" := .of_letters (by decide) rfl
  have hf : f.Representable := by
    refine ⟨?_, ?_, ?_, ?_, ?_, ?_⟩ <;>
      simp [f, Sequence.Writable, Pair.Representable, Value.Representable, IsQuotable, hgit,
        Block.Representable, VmSpec.Representable, Sequence.Representable]
  have htext : f.render = text := by decide +kernel
  have hparse : (Formation.parse "" text).outcome = .ok f :=
    htext ▸ parse_ok_of_document hf (render_document hf) (.inr (by simp [f]))
  refine ⟨ht, hparse, ?_⟩
  rcases Formation.parse_lineEnds "" ht with ⟨f', h, hcrlf, hcr⟩ | ⟨e, -, h, -⟩ | ⟨_, _, h, -⟩
  · obtain rfl : f = f' := Except.ok.inj (hparse.symm.trans h)
    exact ⟨hcrlf, hcr⟩
  · cases hparse.symm.trans h
  · cases hparse.symm.trans h

end Fleet
