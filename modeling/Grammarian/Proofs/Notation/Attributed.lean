import Grammarian.Notation.Dialect
import Grammarian.Proofs.Grammar.Validity
import Grammarian.Proofs.Notation.Lines
import Grammarian.Proofs.Notation.Trees

/-!
# The attributed notation

Its rules are accepted, their table reads by steps, and what lines are read as is the grammar of these lines.
-/

namespace Grammarian.Notation

/-- The table of the rules of the notation. -/
def attributedTable : Table := .ofRules attributedRules "WS"

/-- The rules that begin with another one, each before those it begins with. -/
def attributedOrder : List String :=
  ["Grammar", "%Atomic", "Production", "%Attributes", "Attribute", "AttributeValue", "%Choice", "%_Choice_1",
    "SequenceOrDifference", "%_Item_1", "%Item", "%Primary", "%RULE_CharClass_1", "CharRange", "CharCodeRange",
    "%EndOfProduction", "RULE_S", "RULE_WHITESPACE"]

theorem wellOrdered_attributedRules :
    Table.WellOrdered attributedOrder (attributedRules.map (Rule.settled "WS")) "WS" := by
  decide +kernel

theorem attributedParser_eq : attributedParser = .ok ⟨attributedTable, {}⟩ :=
  Parser.build_eq_ok_iff.2 ⟨wellOrdered_attributedRules.build, rfl⟩

/-! ## Reading literals -/

/-- A literal between marks of its own. -/
def quotedSteps : List (List Step) :=
  [[.one (.literal ['"']), .optional (.rule "%RULE_DoubleQuoted"), .one (.literal ['"'])],
    [.one (.literal ['\'']), .optional (.rule "%RULE_SingleQuoted"), .one (.literal ['\''])]]

section Quoted

variable {t : Table} {text rest input : List Char}

theorem doubleQuoted_regex : (Pattern.ofSource "[^\"]+").regex = .run (.compl (.union .none (.single '"'))) :=
  Pattern.regex_ofSource (by decide +kernel)

theorem singleQuoted_regex : (Pattern.ofSource "[^']+").regex = .run (.compl (.union .none (.single '\''))) :=
  Pattern.regex_ofSource (by decide +kernel)

theorem compl_contains (q c : Char) :
    (Pattern.CharSet.compl (.union .none (.single q))).contains c = !decide (c = q) := by
  simp only [Pattern.CharSet.contains, contains_single, Bool.false_or]

/-- What stands between two marks, if anything does. -/
theorem skims_quoted {name source : String} {q : Char} {body : List Char}
    (hrule : t.declares name true [[.one (.pattern (.ofSource source))]] = true)
    (hregex : (Pattern.ofSource source).regex = .run (.compl (.union .none (.single q)))) (hbody : q ∉ body) :
    (Step.optional (.rule name)).Skims t isToken body (q :: rest) [] := by
  have hmark : ∀ c ∈ (q :: rest).head?, (Pattern.CharSet.compl (.union .none (.single q))).contains c = false := by
    intro c hc
    cases hc
    simp [compl_contains]
  by_cases hempty : body = []
  · subst hempty
    refine Step.skims_optional_of_none (Table.answers_rule_none hrule ?_)
    simp only [List.forall_mem_singleton]
    exact Step.rejected_of_none (Target.answers_pattern_none (Pattern.match?_run_eq_none hregex hmark))
  · have hmatch : (Pattern.ofSource source).match? (body ++ q :: rest) = some (q :: rest) := by
      refine Pattern.match?_run hregex hempty (fun c hc => ?_) hmark
      have hne : c ≠ q := fun heq => hbody (heq ▸ hc)
      simp [compl_contains, hne]
    have hread : (Step.one (.pattern (.ofSource source))).Reads t isToken body (q :: rest) [] :=
      Step.reads_one (Target.reads_pattern hmatch)
    exact (Step.reads_optional (Target.reads_rule (Table.reads_fragment hrule hread.alone.first))).skims

/-- The mark, what stands behind it, and the mark. -/
theorem readAll_quoted {name : String} {q : Char} {body : List Char}
    (h : (Step.optional (.rule name)).Skims t isToken body (q :: rest) []) :
    Step.ReadAll t isToken [.one (.literal [q]), .optional (.rule name), .one (.literal [q])]
      (q :: (body ++ [q])) rest [] := by
  have hopen : (Step.one (.literal [q])).Reads t isToken [q] (body ++ [q] ++ rest) [] :=
    Step.reads_one (Target.reads_literal (by simp) _)
  have hclose : (Step.one (.literal [q])).Reads t isToken [q] rest [] :=
    Step.reads_one (Target.reads_literal (by simp) rest)
  exact hopen.cons (h.cons hclose.alone).skimAll

theorem Lexical.reads_quoted (hl : Lexical t) (hrule : t.declares "StringLiteral" false quotedSteps = true)
    (htext : IsQuoted text) (rest : List Char) :
    t.Reads isToken "StringLiteral" text rest [.token "StringLiteral" text] := by
  obtain ⟨q, body, rfl, hq, hbody⟩ := htext
  have hfound : Step.ReadFirst t isToken quotedSteps (q :: (body ++ [q])) rest [] →
      t.Reads isToken "StringLiteral" (q :: (body ++ [q])) rest [.token "StringLiteral" (q :: (body ++ [q]))] :=
    fun hread => Table.reads_token hrule (by decide) (by decide) hread
  refine hfound ?_
  simp only [Literal.isQuote, Bool.or_eq_true, decide_eq_true_eq] at hq
  rcases hq with rfl | rfl
  · exact (readAll_quoted (skims_quoted hl.doubleQuoted doubleQuoted_regex hbody)).first
  · have hnot : (Target.literal ['"']).Answers t ('\'' :: (body ++ ['\'']) ++ rest) none :=
      Target.answers_literal_none fun d hd => by cases hd; decide
    refine .next (Step.rejected_of_none hnot) ?_
    exact (readAll_quoted (skims_quoted hl.singleQuoted singleQuoted_regex hbody)).first

theorem quoted_none (hrule : t.declares "StringLiteral" false quotedSteps = true)
    (hinput : Clear Literal.isQuote input) : (Target.rule "StringLiteral").Answers t input none := by
  refine Table.answers_rule_none hrule ?_
  simp only [quotedSteps, List.forall_mem_cons]
  refine ⟨?_, ?_, by simp⟩
  · refine Step.rejected_of_none (Target.answers_literal_none fun d hd heq => ?_)
    exact absurd (hinput d hd) (by rw [heq]; decide)
  · refine Step.rejected_of_none (Target.answers_literal_none fun d hd heq => ?_)
    exact absurd (hinput d hd) (by rw [heq]; decide)

end Quoted

/-! ## The table -/

theorem lexical_attributedTable : Lexical attributedTable where
  name := by decide +kernel
  doubleQuoted := by decide +kernel
  singleQuoted := by decide +kernel
  code := by decide +kernel
  charClass := by decide +kernel
  classItem := by decide +kernel
  classChar := by decide +kernel
  charRange := by decide +kernel
  codeRange := by decide +kernel
  whitespace := by decide +kernel
  blank := by decide +kernel
  spacing := by decide +kernel
  lineEnd := by decide +kernel
  comment := ⟨[.star (.rule "%RULE_Comment_Body"), .one (.literal ['*', '/'])], by decide +kernel⟩
  endOfProduction := by decide +kernel

theorem attributed_attributedTable : Attributed attributedTable where
  toLexical := lexical_attributedTable
  choice := by decide +kernel
  further := by decide +kernel
  sequence := by decide +kernel
  moreItems := by decide +kernel
  minus := by decide +kernel
  item := by decide +kernel
  tail := by decide +kernel
  lead := by decide +kernel
  primary := by decide +kernel
  group := by decide +kernel
  reads_quoted htext rest := lexical_attributedTable.reads_quoted (by decide +kernel) htext rest
  quoted_none hinput := quoted_none (by decide +kernel) hinput
  grammar := by decide +kernel
  line := by decide +kernel
  production := by decide +kernel
  attributes := by decide +kernel
  nextAttribute := by decide +kernel
  oneAttribute := by decide +kernel
  value := by decide +kernel

theorem start_attributedTable : attributedTable.start?.map (·.name) = some "Grammar" := by decide +kernel

/-- **Lines are read as the grammar of these lines.** -/
theorem readGrammarTree_lines {lines : List Line} (h : ∀ l ∈ lines, l.Legible) :
    ∃ root, readGrammarTree attributedParser (String.ofList (lines.flatMap Line.text)) = .ok root ∧
      root.outline isToken = grammarNode [] lines :=
  readGrammarTree_of_readFirst attributedParser_eq start_attributedTable attributed_attributedTable.grammar
    (by decide) (attributed_attributedTable.readFirst_grammar h)

end Grammarian.Notation
