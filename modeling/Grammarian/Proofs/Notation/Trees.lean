import Grammarian.Notation.Failure
import Grammarian.Proofs.Parse.Language
import Grammarian.Proofs.Parse.Spelling

/-!
# Trees of grammar texts

A grammar text is accepted where the parser of its notation exists and reads it without errors. So what the rules
of a notation read is a tree of it, and what they derive is said of every tree.
-/

namespace Grammarian

variable {parser : Except (List Problem) Parser} {source : String} {root : Node}

/-- A text has a tree where it is read without errors. -/
theorem readGrammarTree_eq_ok_iff : readGrammarTree parser source = .ok root ↔
    ∃ p tree, parser = .ok p ∧ p.parse source none = .ok tree ∧ tree.errors = [] ∧ tree.root = root := by
  constructor
  · intro h
    unfold readGrammarTree at h
    split at h
    next => cases h
    next p =>
      split at h
      next => cases h
      next tree hparse =>
        split at h
        next herrors => exact ⟨p, tree, rfl, hparse, herrors, Except.ok.inj h⟩
        next => cases h
  · rintro ⟨p, tree, rfl, hparse, herrors, rfl⟩
    simp only [readGrammarTree, hparse, herrors]

variable {t : Table} {kinds : String → Bool} {name : String} {steps : List (List Step)}

/-- What the rule where parsing starts reads to the end is the tree of a text. -/
theorem readGrammarTree_of_readFirst {text : List Char} {ns : List Node} (hparser : parser = .ok ⟨t, {}⟩)
    (hstart : t.start?.map (·.name) = some name) (hgrammar : t.declares name false steps = true)
    (htoken : kinds name = false) (h : Step.ReadFirst t kinds steps text [] ns) :
    ∃ root, readGrammarTree parser (String.ofList text) = .ok root ∧ root.outline kinds = .branch name ns := by
  obtain ⟨tree, hparse, herrors, hroot⟩ := Parser.parse_of_readFirst hstart hgrammar htoken h
  exact ⟨tree.root, readGrammarTree_eq_ok_iff.2 ⟨_, tree, hparser, hparse, herrors, rfl⟩, hroot⟩

/-- The tree of a source that a notation reads without errors, told by languages for its rules. -/
theorem inner_of_readGrammarTree {rules : String → Language} (hparser : parser = .ok ⟨t, {}⟩)
    (hrules : t.Respects kinds rules) (hstart : t.start?.map (·.name) = some name) (htoken : kinds name = false)
    (hgrammar : t.declares name false steps = true) (h : readGrammarTree parser source = .ok root) :
    ∃ alt ∈ steps, ∃ inner, Step.languageAll rules alt source.toList inner ∧
      root.outline kinds = .branch name inner := by
  obtain ⟨p, tree, hp, hparse, herrors, rfl⟩ := readGrammarTree_eq_ok_iff.1 h
  obtain rfl : p = ⟨t, {}⟩ := Except.ok.inj (hp.symm.trans hparser)
  obtain ⟨e, alt, inner, he, halt, hinner, houtline⟩ :=
    Parser.parse_language hrules rfl hstart htoken hparse herrors
  obtain ⟨e', he', -, -, hsteps⟩ := Table.exists_of_declares hgrammar
  obtain rfl : e = e' := Option.some.inj (he.symm.trans he')
  exact ⟨alt, hsteps ▸ halt, inner, hinner, houtline⟩

end Grammarian
